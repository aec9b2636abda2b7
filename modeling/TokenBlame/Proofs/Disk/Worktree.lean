/-
# TokenBlame.Proofs.Disk.Worktree -- working trees that hold a snapshot

A working tree holds a snapshot (`Holds`) when there is nothing in it but the entries of the
snapshot, the directories above them and the repository's own directory.  Writing a file or
making a link, with the directories above it, leads from a snapshot that is held to the next
one (`Holds.write_file`, `Holds.make_link`), unless the path is not apart from the others
(`Holds.write_blocked`).

What is done to a working tree spares the rest of the disk (`Spares`): nothing else is seen
outside of it, or in the repository's own directory.
-/
import TokenBlame.Proofs.Disk.Enter
import TokenBlame.Proofs.Disk.Outcome
import TokenBlame.Proofs.Git.Snapshot

set_option autoImplicit false

namespace TokenBlame.Disk

open Git

/-! ## Working trees -/

/-- A working tree with the files of a snapshot, the directories above them and, beside the
repository's own directory, nothing else. -/
structure Holds (disk : Disk) (top : TreePath) (tree : Snapshot) : Prop where
  stands : look disk top = some .directory
  seen : ∀ path, path ≠ [] → path.head? ≠ some TreePath.gitDirectory →
    look disk (top ++ path) = tree.view path

/-- What keeps all that is seen outside the repository's own directory keeps the snapshot. -/
theorem Holds.of_same {disk next : Disk} {top : TreePath} {tree : Snapshot}
    (holds : Holds disk top tree) (stands : look next top = some .directory)
    (same : ∀ path, path ≠ [] → path.head? ≠ some TreePath.gitDirectory →
      look next (top ++ path) = look disk (top ++ path)) : Holds next top tree :=
  ⟨stands, fun path nonempty outside => by rw [same path nonempty outside, holds.seen path nonempty outside]⟩

/-- What is put inside the repository's own directory keeps the snapshot. -/
theorem Holds.put {disk : Disk} {top : TreePath} {tree : Snapshot} (holds : Holds disk top tree)
    (file : TreePath) (node : Node) :
    Holds (disk.put (top ++ TreePath.gitDirectory :: file) node) top tree := by
  refine holds.of_same ?_ ?_
  · exact look_put_above node (List.prefix_append _ _) (by simp) holds.stands
  · intro path nonempty outside
    obtain ⟨name, rest, rfl⟩ := List.exists_cons_of_ne_nil nonempty
    have other : name ≠ TreePath.gitDirectory := by simpa using outside
    apply look_put_apart
    · rw [List.prefix_append_right_inj, List.cons_prefix_cons]
      exact fun h => other h.1.symm
    · rw [List.prefix_append_right_inj, List.cons_prefix_cons]
      exact fun h => other h.1

theorem Holds.fill {disk : Disk} {top : TreePath} {tree : Snapshot} (holds : Holds disk top tree)
    (file : TreePath) (content : Bytes) :
    Holds (Disk.fill disk (top ++ TreePath.gitDirectory :: file) content) top tree := by
  unfold Disk.fill
  split
  · exact holds.put _ _
  · exact holds.put _ _

/-- What stands beneath the top is all that counts. -/
theorem Holds.elsewhere {disk next : Disk} {top : TreePath} {tree : Snapshot}
    (holds : Holds disk top tree) (same : next.at? top = disk.at? top) : Holds next top tree := by
  have looks : ∀ path, look next (top ++ path) = look disk (top ++ path) := by
    intro path
    rw [look_append, look_append, same]
  refine holds.of_same ?_ fun path _ _ => looks path
  rw [← holds.stands]
  simpa using looks []

/-- An empty directory holds nothing. -/
theorem holds_vacant {disk : Disk} {top : TreePath} (vacant : disk.at? top = some .vacant) :
    Holds disk top ∅ := by
  refine ⟨look_eq_directory.2 ⟨[], vacant⟩, ?_⟩
  intro path nonempty _
  rw [look_append, vacant, Option.bind_some, look_vacant, if_neg nonempty]
  rfl

/-- No entry of the snapshot is on the way to a path that none of them is above. -/
theorem Holds.opened {disk : Disk} {top path : TreePath} {tree : Snapshot}
    (holds : Holds disk top tree) (outside : path.head? ≠ some TreePath.gitDirectory)
    (below : ∀ other entry, tree.get? other = some entry → TreePath.isInside other path = false)
    (way : TreePath) (entry : Entry) (start : way <+: path) (other : way ≠ path) :
    look disk (top ++ way) ≠ some (.entry entry) := by
  cases way with
  | nil =>
      rw [List.append_nil, holds.stands]
      simp
  | cons name rest =>
      have head : (name :: rest).head? = path.head? := TreePath.head?_of_above start (by simp)
      rw [holds.seen _ (by simp) (head ▸ outside)]
      intro seen
      have inside := below _ entry (Snapshot.view_eq_entry.1 seen)
      rw [TreePath.isInside_iff.2 ⟨start, other⟩] at inside
      cases inside

/-- Names meet no link of a working tree that the snapshot does not have. -/
theorem Holds.linkFree {disk : Disk} {top names path : TreePath} {tree : Snapshot}
    (holds : Holds disk top tree) (straight : tree.Straight names) (before : names <+: path)
    (outside : path.head? ≠ some TreePath.gitDirectory) : LinkFree disk top names := by
  intro way target start
  cases way with
  | nil =>
      rw [List.append_nil, holds.stands]
      simp
  | cons name rest =>
      have head : (name :: rest).head? = path.head? :=
        TreePath.head?_of_above (start.trans before) (by simp)
      rw [holds.seen _ (by simp) (head ▸ outside)]
      intro seen
      exact straight _ target start (Snapshot.view_eq_entry.1 seen)

/-- An entry of the snapshot is seen in the working tree. -/
theorem Holds.seen_entry {disk : Disk} {top other : TreePath} {tree : Snapshot} {entry : Entry}
    (holds : Holds disk top tree) (proper : tree.Proper) (found : tree.get? other = some entry) :
    look disk (top ++ other) = some (.entry entry) := by
  rw [holds.seen _ (proper.nonempty _ _ found)
    (TreePath.head?_ne_gitDirectory (proper.valid _ _ found)), Snapshot.view_of_get? found]

/-- Where there is nothing on the way to a path, and no entry above that, the path is not in
the snapshot and apart from it. -/
theorem Holds.apart_of_nothing {disk : Disk} {top way path : TreePath} {tree : Snapshot}
    (holds : Holds disk top tree) (proper : tree.Proper) (start : way <+: path)
    (nothing : look disk (top ++ way) = none)
    (opened : ∀ outer entry, outer <+: way → look disk (top ++ outer) ≠ some (.entry entry)) :
    tree.get? path = none ∧
      ∀ other entry, tree.get? other = some entry → TreePath.Apart path other := by
  have absent : ∀ other entry, tree.get? other = some entry → ¬ way <+: other := by
    intro other entry found below
    have seen := holds.seen_entry proper found
    by_cases same : way = other
    · rw [same, seen] at nothing
      cases nothing
    · rw [look_toward (TreePath.isInside_iff.2 ⟨below, same⟩) seen] at nothing
      cases nothing
  refine ⟨Option.eq_none_iff_forall_ne_some.2 fun entry found => absent path entry found start,
    fun other entry found => ⟨?_, ?_⟩⟩
  · exact Bool.eq_false_iff.2 fun inside =>
      absent other entry found (start.trans (TreePath.isInside_iff.1 inside).1)
  · refine Bool.eq_false_iff.2 fun inside => ?_
    rcases List.prefix_or_prefix_of_prefix (TreePath.isInside_iff.1 inside).1 start with
      outer | inner
    · exact opened other entry outer (holds.seen_entry proper found)
    · exact absent other entry found inner

/-- A path that is not apart from an entry of the snapshot is a directory, or the entry is
above it. -/
theorem Holds.of_blocked {disk : Disk} {top lead other : TreePath} {name : Name}
    {tree : Snapshot} {entry : Entry} (holds : Holds disk top tree) (proper : tree.Proper)
    (found : tree.get? other = some entry) (blocked : ¬ TreePath.Apart (lead ++ [name]) other) :
    look disk (top ++ (lead ++ [name])) = some .directory ∨ other <+: lead := by
  by_cases below : TreePath.isInside (lead ++ [name]) other = true
  · exact .inl (look_toward below (holds.seen_entry proper found))
  · refine .inr (Decidable.byContradiction fun apart => blocked ⟨by simpa using below, ?_⟩)
    exact Bool.eq_false_iff.2 fun above => apart (TreePath.isInside_concat_iff.1 above)

/-! ## What is outside of a working tree -/

/-- What is seen outside of a working tree, at its top and in the repository's own directory is
the same. -/
def Spares (disk next : Disk) (top : TreePath) : Prop :=
  ∀ place, (∀ path, path ≠ [] → path.head? ≠ some TreePath.gitDirectory → place ≠ top ++ path) →
    look next place = look disk place

theorem Spares.refl (disk : Disk) (top : TreePath) : Spares disk disk top := fun _ _ => rfl

theorem Spares.trans {disk middle next : Disk} {top : TreePath} (first : Spares disk middle top)
    (second : Spares middle next top) : Spares disk next top :=
  fun place away => (second place away).trans (first place away)

/-- What is taken away in a working tree spares the rest. -/
theorem Spares.erase (disk : Disk) (top : TreePath) {path : TreePath} (nonempty : path ≠ [])
    (outside : path.head? ≠ some TreePath.gitDirectory) :
    Spares disk (disk.erase (top ++ path)) top := by
  intro place away
  rw [look_erase (by simp [nonempty]), if_neg]
  rintro ⟨rest, rfl⟩
  have head : path.head? = (path ++ rest).head? :=
    TreePath.head?_of_above (List.prefix_append _ _) nonempty
  exact away (path ++ rest) (by simp [nonempty]) (head ▸ outside) (List.append_assoc _ _ _)

/-- What is put into a directory of a working tree spares the rest. -/
theorem Spares.put {disk : Disk} {top path : TreePath} (item : Node) (nonempty : path ≠ [])
    (outside : path.head? ≠ some TreePath.gitDirectory) (opened : Open disk (top ++ path))
    (stands : look disk top = some .directory) : Spares disk (disk.put (top ++ path) item) top := by
  intro place away
  rw [look_put opened, if_neg]
  · split
    · rename_i above
      rcases List.prefix_or_prefix_of_prefix above (List.prefix_append top path) with start | start
      · rw [look_outer start stands]
      · -- a directory above the path is in the working tree, too
        obtain ⟨way, rfl⟩ := start
        by_cases root : way = []
        · rw [root, List.append_nil, stands]
        · have inner : way <+: path := (List.prefix_append_right_inj _).1 above
          exact absurd rfl (away way root (TreePath.head?_of_above inner root ▸ outside))
    · rfl
  · rintro ⟨rest, rfl⟩
    have head : path.head? = (path ++ rest).head? :=
      TreePath.head?_of_above (List.prefix_append _ _) nonempty
    exact away (path ++ rest) (by simp [nonempty]) (head ▸ outside) (List.append_assoc _ _ _)

/-! ## Writing a file -/

/-- Whether what is seen is an executable file. -/
def isExecutable : Option Seen → Bool
  | some (.entry (.file _ executable)) => executable
  | _ => false

/-- The permission of a file that is written: the one that it has, or that of a new file. -/
def permission (executable : Bool) : Option Seen → Bool
  | some (.entry (.file _ kept)) => kept
  | _ => executable

theorem fill_eq (disk : Disk) (place : TreePath) (content : Bytes) (executable : Bool) :
    Disk.fill disk place content executable =
      disk.put place (.file content (permission executable (look disk place))) := by
  unfold Disk.fill
  split
  · rename_i kept found
    rw [look_eq_file.2 found]
    rfl
  · rename_i other
    have no : permission executable (look disk place) = executable := by
      unfold permission
      split
      · rename_i content' executable' seen
        exact absurd (look_eq_file.1 seen) (other content' executable')
      · rfl
    rw [no]

/-- A path that the system takes. -/
structure Fits (top : TreePath) (path : Bytes) : Prop where
  accepted : (Route.within top path).fault? = none
  short : ∀ name ∈ TreePath.split path, name.length ≤ maxName

theorem join_concat_prefix (lead : TreePath) (name : Name) :
    TreePath.join lead <+: TreePath.join (lead ++ [name]) := by
  induction lead with
  | nil => exact List.nil_prefix
  | cons first rest ih =>
      cases rest with
      | nil =>
          rw [List.cons_append, List.nil_append, TreePath.join_cons_cons]
          simp [TreePath.join, List.intercalate]
      | cons next rest =>
          rw [List.cons_append, List.cons_append, TreePath.join_cons_cons, TreePath.join_cons_cons]
          exact (List.prefix_append_right_inj _).2 (List.cons_prefix_cons.2 ⟨rfl, ih⟩)

theorem fault?_eq_none {route : Route} :
    route.fault? = none ↔ route.text.isEmpty = false ∧ route.text.contains 0 = false ∧
      route.text.length ≤ maxPath := by
  unfold Route.fault?
  cases empty : route.text.isEmpty with
  | true => simp
  | false =>
      cases dirty : route.text.contains 0 with
      | true => simp
      | false =>
          by_cases long : maxPath < route.text.length
          · simp [long, Nat.not_le.2 long]
          · simp [long, Nat.not_lt.1 long]

section Paths

variable {top : TreePath} {path : Bytes} {lead : TreePath} {name : Name}

theorem Fits.parent (fits : Fits top path) (names : TreePath.split path = lead ++ [name])
    (plain : ∀ n ∈ TreePath.split path, TreePath.IsPlain n) :
    (Route.within top path).parent.fault? = none ∧
      (Route.within top path).parent.names = lead := by
  have parent : (TreePath.resolve (TreePath.split path)).dropLast = lead := by
    rw [TreePath.resolve_eq_self plain, names, List.dropLast_concat]
  have before : TreePath.join lead <+: path := by
    have whole := TreePath.join_split path
    rw [names] at whole
    exact whole ▸ join_concat_prefix lead name
  refine ⟨?_, parent⟩
  obtain ⟨-, clean, short⟩ := fault?_eq_none.1 fits.accepted
  rw [fault?_eq_none]
  show (text top ++ TreePath.slash :: TreePath.join
    ((TreePath.resolve (TreePath.split path)).dropLast)).isEmpty = false ∧
      (text top ++ TreePath.slash :: TreePath.join
        ((TreePath.resolve (TreePath.split path)).dropLast)).contains 0 = false ∧
      (text top ++ TreePath.slash :: TreePath.join
        ((TreePath.resolve (TreePath.split path)).dropLast)).length ≤ maxPath
  rw [parent]
  obtain ⟨tail, whole⟩ := before
  have longer : (Route.within top path).text =
      (text top ++ TreePath.slash :: TreePath.join lead) ++ tail := by
    show text top ++ TreePath.slash :: path = _
    rw [← whole]
    simp
  rw [longer] at clean short
  refine ⟨by simp, ?_, ?_⟩
  · simp only [List.contains_eq_mem, List.mem_append, decide_eq_false_iff_not, not_or] at clean ⊢
    exact clean.1
  · rw [List.length_append] at short
    omega

theorem endsInDot_plain {names : List Name} (plain : ∀ n ∈ names, TreePath.IsPlain n) :
    endsInDot names = false := by
  unfold endsInDot
  cases shape : names.reverse with
  | nil => rfl
  | cons last rest =>
      have own : TreePath.IsPlain last :=
        plain last (List.mem_reverse.1 (shape ▸ List.mem_cons_self))
      have step := own.step
      simp only [TreePath.isStep, Bool.and_eq_true, Bool.not_eq_true', bne_iff_ne, ne_eq] at step
      rw [List.dropWhile_cons_of_neg (by simp [step.1])]
      simpa using step.2

/-- The directories above a path are made one after the other. -/
theorem makeDirectories_parent (disk : Disk) (names : TreePath.split path = lead ++ [name])
    (plain : ∀ n ∈ TreePath.split path, TreePath.IsPlain n)
    (accepted : (Route.within top path).parent.fault? = none) :
    makeDirectories disk (Route.within top path).parent = enterAll disk top lead := by
  have inner : ∀ n ∈ lead, TreePath.IsPlain n := fun n member =>
    plain n (names ▸ List.mem_append_left _ member)
  have parent : (Route.within top path).parent.names = lead := by
    show (TreePath.resolve (TreePath.split path)).dropLast = lead
    rw [TreePath.resolve_eq_self plain, names, List.dropLast_concat]
  unfold makeDirectories
  rw [accepted, parent, endsInDot_plain inner]
  rfl

/-- The last name of a path stands in the directory that the names before it lead to. -/
theorem site_plain {disk : Disk} (stands : look disk top = some .directory)
    (plain : ∀ n ∈ lead ++ [name], TreePath.IsPlain n) (free : LinkFree disk top lead) :
    site disk top (lead ++ [name]) =
      match reach disk top lead with
      | .error error => .error error
      | .ok directory =>
          if maxName < name.length then .error .nameTooLong else .ok ⟨directory, name, false⟩ := by
  have inner : ∀ n ∈ lead, TreePath.IsPlain n := fun n member =>
    plain n (List.mem_append_left _ member)
  have own : TreePath.IsPlain name := plain name (by simp)
  have nonempty : name ≠ [] := by
    rintro rfl
    exact absurd own.step (by decide)
  have found : directoryAt disk top lead = reach disk top lead := by
    have resolved := TreePath.resolve_eq_self inner
    rw [directoryAt_eq_reach stands (fun n member => ne_above (inner n member)), resolved]
    rw [resolved]
    exact free
  rw [site_eq disk top nonempty (show ∀ other ∈ ([] : List Name), other = [] by simp), found]
  rfl

/-- A name that is not too long has its place where the names before it lead to. -/
theorem site_short {disk : Disk} (stands : look disk top = some .directory)
    (plain : ∀ n ∈ lead ++ [name], TreePath.IsPlain n) (free : LinkFree disk top lead)
    (short : name.length ≤ maxName) :
    site disk top (lead ++ [name]) =
      match reach disk top lead with
      | .error error => .error error
      | .ok directory => .ok ⟨directory, name, false⟩ := by
  rw [site_plain stands plain free]
  cases reach disk top lead with
  | error error => rfl
  | ok directory => exact if_neg (Nat.not_lt.2 short)

/-- Where the directories above a name are there, it has its place in the last of them. -/
theorem site_of_directories {disk : Disk} (plain : ∀ n ∈ lead ++ [name], TreePath.IsPlain n)
    (short : ∀ n ∈ lead ++ [name], n.length ≤ maxName)
    (directories : ∀ way, way <+: lead → look disk (top ++ way) = some .directory) :
    site disk top (lead ++ [name]) = .ok ⟨top ++ lead, name, false⟩ := by
  have free : LinkFree disk top lead := by
    intro way target start
    rw [directories way start]
    simp
  have reached : reach disk top lead = .ok (top ++ lead) :=
    reach_ok (fun n member => short n (List.mem_append_left _ member))
      fun way start _ => directories way start
  rw [site_short (by simpa using directories [] List.nil_prefix) plain free
    (short name (by simp)), reached]

theorem place_site {top lead : TreePath} {name : Name} :
    Site.place ⟨top ++ lead, name, false⟩ = top ++ (lead ++ [name]) := by
  rw [← List.append_assoc]
  rfl

theorem isPlain_site {directory : TreePath} (plain : TreePath.IsPlain name) :
    (Site.mk directory name false).isPlain = true := by
  simp [Site.isPlain, plain.step, ne_above plain]

/-- Where the directories above a path are there and it is no directory, it is the path of a
file that can be written. -/
theorem fileAt_plain {disk : Disk} (fits : Fits top path)
    (names : TreePath.split path = lead ++ [name])
    (plain : ∀ n ∈ TreePath.split path, TreePath.IsPlain n)
    (directories : ∀ way, way <+: lead → look disk (top ++ way) = some .directory)
    (free : ∀ target, look disk (top ++ TreePath.split path) ≠ some (.entry (.link target)))
    (noDirectory : look disk (top ++ TreePath.split path) ≠ some .directory) :
    fileAt disk (.within top path) = .ok (top ++ TreePath.split path) := by
  have own : TreePath.IsPlain name := plain name (names ▸ by simp)
  have short : ¬ maxName < name.length := Nat.not_lt.2 (fits.short name (names ▸ by simp))
  have place : top ++ TreePath.split path = top ++ lead ++ [name] := by
    rw [names, List.append_assoc]
  have followed : follow disk (top ++ lead) [name] = .ok (top ++ lead ++ [name]) :=
    follow_name (directories lead (List.prefix_refl _)) own short (place ▸ free)
  have other : (disk.at? (top ++ lead ++ [name])).any Node.isDirectory = false := by
    rw [place] at noDirectory
    cases found : disk.at? (top ++ lead ++ [name]) with
    | none => rfl
    | some node =>
        cases node with
        | directory entries => exact absurd (look_eq_directory.2 ⟨_, found⟩) noDirectory
        | file content executable => rfl
        | link target => rfl
  have at_ : site disk top (TreePath.split path) = .ok ⟨top ++ lead, name, false⟩ :=
    names ▸ site_of_directories (names ▸ plain) (names ▸ fits.short) directories
  rw [place]
  exact fileAt_eq_ok_iff.2 ⟨fits.accepted, _, at_, isPlain_site own, rfl, followed, other⟩

/-- What is above the last name of a path is above the path. -/
theorem above_of_lead (names : TreePath.split path = lead ++ [name]) {way : TreePath}
    (start : way <+: lead) : way <+: TreePath.split path ∧ way ≠ TreePath.split path :=
  TreePath.isInside_iff.1 (names ▸ TreePath.isInside_concat_iff.2 start)

/-- An entry that is put where directories were made for it: a working tree that held a snapshot
holds it with that entry. -/
theorem Holds.put_leaf {disk made : Disk} {tree : Snapshot} (holds : Holds disk top tree)
    (names : TreePath.split path = lead ++ [name]) (valid : (TreePath.split path).isValid = true)
    (apart : ∀ other entry, tree.get? other = some entry →
      TreePath.Apart (TreePath.split path) other)
    (directories : ∀ way, way <+: lead → look made (top ++ way) = some .directory)
    (frame : ∀ place, (∀ way, way <+: lead → place ≠ top ++ way) → look made place = look disk place)
    {item : Node} {entry : Entry} (leaf : item.seen = .entry entry) :
    Holds (made.put (top ++ TreePath.split path) item) top
        (tree.insert (TreePath.split path) entry) ∧
      Spares disk (made.put (top ++ TreePath.split path) item) top := by
  have outside := TreePath.head?_ne_gitDirectory valid
  have nonempty : TreePath.split path ≠ [] := TreePath.split_ne_nil path
  have openPlace : Open made (top ++ TreePath.split path) := by
    rw [names, ← List.append_assoc]
    exact Open.of_directory (directories lead (List.prefix_refl _))
  have stands : look made top = some .directory := by simpa using directories [] List.nil_prefix
  refine ⟨⟨?_, ?_⟩, ?_⟩
  · exact look_put_above _ (List.prefix_append _ _) (by simpa using nonempty) stands
  · intro other some outside'
    rw [look_put openPlace, Snapshot.view_insert apart]
    simp only [List.prefix_append_right_inj]
    by_cases same : TreePath.split path = other
    · rw [if_pos same, if_pos (same ▸ List.prefix_refl _), ← same, List.drop_length, look_entry leaf,
        if_pos rfl]
    rw [if_neg same]
    split
    · rename_i below
      obtain ⟨rest, rfl⟩ := below
      rw [← List.append_assoc, List.drop_left, look_entry leaf, if_neg (by simpa using same)]
    split
    · rfl
    · rename_i notAbove
      rw [frame, holds.seen other some outside']
      intro way start same
      rw [List.append_cancel_left same] at notAbove
      exact notAbove (above_of_lead names start).1
  · refine Spares.trans (fun place away => ?_) (.put _ nonempty outside openPlace stands)
    by_cases root : place = top
    · rw [root, stands, holds.stands]
    · refine frame place fun way start same => ?_
      by_cases none : way = []
      · exact root (by rw [same, none, List.append_nil])
      · have head := TreePath.head?_of_above (above_of_lead names start).1 none
        exact away way none (head ▸ outside) same

/-- **An entry** at a path that is apart from the others: with the directories above it, it brings
a working tree that holds a snapshot to the snapshot with that entry. -/
theorem Holds.put_entry {disk : Disk} {tree : Snapshot} (holds : Holds disk top tree)
    (fits : Fits top path) (names : TreePath.split path = lead ++ [name])
    (valid : (TreePath.split path).isValid = true)
    (apart : ∀ other entry, tree.get? other = some entry →
      TreePath.Apart (TreePath.split path) other) :
    ∃ made, enterAll disk top lead = (.ok (top ++ lead), made) ∧
      (∀ way, way <+: lead → look made (top ++ way) = some .directory) ∧
      look made (top ++ TreePath.split path) = tree.view (TreePath.split path) ∧
      ∀ (item : Node) (entry : Entry), item.seen = .entry entry →
        Holds (made.put (top ++ TreePath.split path) item) top
          (tree.insert (TreePath.split path) entry) ∧
        Spares disk (made.put (top ++ TreePath.split path) item) top := by
  have steps := TreePath.isPlain_of_isValid valid
  have outside := TreePath.head?_ne_gitDirectory valid
  have opened := holds.opened outside fun other entry found => (apart other entry found).2
  obtain ⟨made, entered, directories, frame⟩ := enterAll_open holds.stands
    (fun n member => steps n (names ▸ List.mem_append_left _ member))
    (fun n member => fits.short n (names ▸ List.mem_append_left _ member))
    (fun way entry start => opened way entry (above_of_lead names start).1
      (above_of_lead names start).2)
  have there : look made (top ++ TreePath.split path) = tree.view (TreePath.split path) := by
    rw [frame _ fun way start same =>
      (above_of_lead names start).2 (List.append_cancel_left same).symm,
      holds.seen _ (TreePath.split_ne_nil path) outside]
  exact ⟨made, entered, directories, there, fun item entry leaf =>
    holds.put_leaf names valid apart directories frame leaf⟩

/-- Nothing is inside a path that is apart from the others. -/
theorem isDirectory_of_apart {tree : Snapshot} {names : TreePath}
    (apart : ∀ other entry, tree.get? other = some entry → TreePath.Apart names other) :
    tree.isDirectory names = false := by
  rw [Bool.eq_false_iff]
  intro directory
  obtain ⟨inner, entry, found, inside⟩ := Snapshot.isDirectory_iff.1 directory
  rw [(apart inner entry found).1] at inside
  cases inside

/-- **Writing a file** at a path that is apart from the others brings a working tree that
holds a snapshot to the snapshot with that file. -/
theorem Holds.write_file {disk : Disk} {tree : Snapshot} (holds : Holds disk top tree)
    (straight : tree.Straight (TreePath.split path)) (fits : Fits top path)
    (names : TreePath.split path = lead ++ [name])
    (valid : (TreePath.split path).isValid = true)
    (apart : ∀ other entry, tree.get? other = some entry →
      TreePath.Apart (TreePath.split path) other) (content : Bytes) (executable : Bool) :
    ∃ made written, enterAll disk top lead = (.ok (top ++ lead), made) ∧
      made.write (.within top path) content executable = .ok written ∧
      Holds written top (tree.insert (TreePath.split path)
        (.file content (permission executable (tree.view (TreePath.split path))))) ∧
      Spares disk written top := by
  obtain ⟨made, entered, directories, there, put⟩ := holds.put_entry fits names valid apart
  have at_ : fileAt made (.within top path) = .ok (top ++ TreePath.split path) := by
    apply fileAt_plain fits names (TreePath.isPlain_of_isValid valid) directories
    · intro target
      rw [there]
      intro seen
      exact straight _ target (List.prefix_refl _) (Snapshot.view_eq_entry.1 seen)
    · rw [there, Snapshot.view, isDirectory_of_apart apart]
      split <;> simp
  refine ⟨made, Disk.fill made (top ++ TreePath.split path) content executable, entered, ?_, ?_⟩
  · exact write_eq_ok_iff.2 ⟨_, at_, rfl⟩
  · rw [fill_eq, there]
    exact put _ _ rfl

/-- **Making a link** where nothing is brings it to the snapshot with that link. -/
theorem Holds.make_link {disk : Disk} {tree : Snapshot} (holds : Holds disk top tree)
    (fits : Fits top path) (names : TreePath.split path = lead ++ [name])
    (valid : (TreePath.split path).isValid = true)
    (apart : ∀ other entry, tree.get? other = some entry →
      TreePath.Apart (TreePath.split path) other)
    (absent : tree.get? (TreePath.split path) = none) {target : Bytes} (some : target ≠ [])
    (short : target.length ≤ maxPath) :
    ∃ made written, enterAll disk top lead = (.ok (top ++ lead), made) ∧
      made.makeLink (.within top path) target = .ok written ∧
      Holds written top (tree.insert (TreePath.split path) (.link target)) ∧
      Spares disk written top := by
  obtain ⟨made, entered, directories, there, put⟩ := holds.put_entry fits names valid apart
  have steps := TreePath.isPlain_of_isValid valid
  have at_ : site made top (TreePath.split path) = .ok ⟨top ++ lead, name, false⟩ :=
    names ▸ site_of_directories (names ▸ steps) (names ▸ fits.short) directories
  have nothing : made.at? (top ++ TreePath.split path) = none := by
    rw [← look_eq_none, there, Snapshot.view, absent, isDirectory_of_apart apart]
    rfl
  refine ⟨made, made.put (top ++ TreePath.split path) (.link target), entered, ?_, put _ _ rfl⟩
  have own : TreePath.IsPlain name := steps name (names ▸ by simp)
  have place : Site.place ⟨top ++ lead, name, false⟩ = top ++ TreePath.split path :=
    names ▸ place_site
  exact makeLink_eq_ok_iff.2 ⟨fits.accepted, some, short, _, at_, isPlain_site own,
    place ▸ nothing, rfl, by rw [place]⟩

/-- A new file is not executable. -/
theorem Holds.write {disk : Disk} {tree : Snapshot} (holds : Holds disk top tree)
    (straight : tree.Straight (TreePath.split path)) (fits : Fits top path)
    (names : TreePath.split path = lead ++ [name])
    (valid : (TreePath.split path).isValid = true)
    (apart : ∀ other entry, tree.get? other = some entry →
      TreePath.Apart (TreePath.split path) other) (content : Bytes) :
    ∃ made written, enterAll disk top lead = (.ok (top ++ lead), made) ∧
      made.write (.within top path) content = .ok written ∧
      Holds written top (tree.insert (TreePath.split path)
        (.file content (isExecutable (tree.view (TreePath.split path))))) ∧
      Spares disk written top :=
  holds.write_file straight fits names valid apart content false

/-- Where a path is not apart from the snapshot, no file can be written: the path is a
directory, or a file is above it.  Nothing is made then. -/
theorem Holds.write_blocked {disk : Disk} {tree : Snapshot} (holds : Holds disk top tree)
    (proper : tree.Proper) (straight : tree.Straight (TreePath.split path)) (fits : Fits top path)
    (names : TreePath.split path = lead ++ [name])
    (valid : (TreePath.split path).isValid = true) {other : TreePath} {entry : Entry}
    (found : tree.get? other = some entry)
    (blocked : ¬ TreePath.Apart (TreePath.split path) other) (content : Bytes) :
    (∃ error, enterAll disk top lead = (.error error, disk) ∧ error.isFatal = false) ∨
      enterAll disk top lead = (.ok (top ++ lead), disk) ∧
        disk.write (.within top path) content = .error .isDirectory := by
  have steps := TreePath.isPlain_of_isValid valid
  have before : lead <+: TreePath.split path := names ▸ List.prefix_append _ _
  have inner : ∀ n ∈ lead, TreePath.IsPlain n := fun n member => steps n (before.subset member)
  have short : ∀ n ∈ lead, n.length ≤ maxName := fun n member => fits.short n (before.subset member)
  have seen := holds.seen_entry proper found
  rcases holds.of_blocked proper found (names ▸ blocked) with directory | above
  · have directories : ∀ way, way <+: lead → look disk (top ++ way) = some .directory :=
      fun way begins => look_outer
        ((List.prefix_append_right_inj _).2 (begins.trans (List.prefix_append _ _))) directory
    refine Or.inr ⟨enterAll_directories inner short directories, ?_⟩
    have own : TreePath.IsPlain name := steps name (names ▸ by simp)
    have at_ := site_of_directories (names ▸ steps) (names ▸ fits.short) directories
    have fitting : ¬ maxName < name.length := Nat.not_lt.2 (fits.short name (names ▸ by simp))
    rw [← List.append_assoc] at directory
    have followed : follow disk (top ++ lead) [name] = .ok (top ++ lead ++ [name]) :=
      follow_name (directories lead (List.prefix_refl _)) own fitting (by rw [directory]; simp)
    obtain ⟨entries, stands⟩ := look_eq_directory.1 directory
    have refused : fileAt disk (.within top path) = .error .isDirectory := by
      unfold fileAt
      rw [fits.accepted]
      have named : site disk (Route.within top path).start (Route.within top path).names =
          .ok ⟨top ++ lead, name, false⟩ := by
        rw [← at_, ← names]
        rfl
      simp only [named, isPlain_site own, followed, stands, bind, Except.bind]
      rfl
    unfold Disk.write
    rw [refused]
    rfl
  · have file : entry.isFile = true := by
      cases entry with
      | file content executable => rfl
      | link target => exact absurd found (straight other target (above.trans before))
      | submodule commit => exact absurd seen (look_ne_submodule _ _ _)
    exact Or.inl (enterAll_blocked inner short above (proper.nonempty _ _ found) seen file)

end Paths

end TokenBlame.Disk
