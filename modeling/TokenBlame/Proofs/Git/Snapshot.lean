/-
# TokenBlame.Proofs.Git.Snapshot -- snapshots as maps of paths

What a snapshot has at a path after each operation, and what is seen at a path of the
working tree that a snapshot stands for (`view`): its entries, and a directory wherever
something is inside.

A `Proper` snapshot has entries only at paths that may stand in a tree, none of which is a
directory of another; a `Plain` one has files only.  `without` leaves out a path with all that
is not apart from it.
-/
import TokenBlame.Proofs.Disk.Look

set_option autoImplicit false

namespace TokenBlame.Git.Snapshot

open Disk (Seen)

/-! ## Operations -/

theorem get?_insert_self (tree : Snapshot) (path : TreePath) (entry : Entry) :
    (tree.insert path entry).get? path = some entry := by
  rw [Table.get?_insert, if_pos (Std.compare_eq_iff_eq.2 rfl)]

theorem get?_insert_ne (tree : Snapshot) {path other : TreePath} (different : path ≠ other)
    (entry : Entry) : (tree.insert path entry).get? other = tree.get? other := by
  rw [Table.get?_insert, if_neg fun same => different (Std.compare_eq_iff_eq.1 same)]

theorem get?_erase_self (tree : Snapshot) (path : TreePath) :
    (tree.erase path).get? path = none := by
  rw [Table.get?_erase, if_pos (Std.compare_eq_iff_eq.2 rfl)]

theorem get?_erase_ne (tree : Snapshot) {path other : TreePath} (different : path ≠ other) :
    (tree.erase path).get? other = tree.get? other := by
  rw [Table.get?_erase, if_neg fun same => different (Std.compare_eq_iff_eq.1 same).symm]

/-- Taking away what is not there changes nothing. -/
theorem erase_of_none {tree : Snapshot} {path : TreePath} (none : tree.get? path = none) :
    tree.erase path = tree := by
  apply Table.ext_get?
  intro other
  by_cases same : path = other
  · rw [← same, get?_erase_self, none]
  · rw [get?_erase_ne tree same]

/-- Where no directory is in the way, placing an entry is inserting it. -/
theorem place_of_apart {tree : Snapshot} {path : TreePath}
    (apart : ∀ other entry, tree.get? other = some entry → TreePath.Apart path other)
    (entry : Entry) : tree.place path entry = tree.insert path entry := by
  apply Table.ext_get?
  intro other
  unfold place
  by_cases same : path = other
  · subst same
    rw [get?_insert_self, get?_insert_self]
  · rw [get?_insert_ne _ same, get?_insert_ne _ same, Table.get?_filter]
    cases found : tree.get? other with
    | none => rfl
    | some entry' =>
        obtain ⟨above, below⟩ := apart other entry' found
        simp [above, below]

theorem isDirectory_iff {tree : Snapshot} {path : TreePath} :
    tree.isDirectory path = true ↔
      ∃ inner entry, tree.get? inner = some entry ∧ TreePath.isInside path inner = true := by
  unfold isDirectory
  rw [List.any_eq_true]
  constructor
  · rintro ⟨⟨inner, entry⟩, member, inside⟩
    exact ⟨inner, entry, Table.get?_eq_some_iff.2 member, inside⟩
  · rintro ⟨inner, entry, found, inside⟩
    exact ⟨(inner, entry), Table.get?_eq_some_iff.1 found, inside⟩

/-! ## The working tree of a snapshot -/

/-- What is seen at a path of the working tree. -/
def view (tree : Snapshot) (path : TreePath) : Option Seen :=
  match tree.get? path with
  | some entry => some (.entry entry)
  | none => if tree.isDirectory path then some .directory else none

theorem view_of_get? {tree : Snapshot} {path : TreePath} {entry : Entry}
    (found : tree.get? path = some entry) : tree.view path = some (.entry entry) := by
  rw [view, found]

theorem view_eq_entry {tree : Snapshot} {path : TreePath} {entry : Entry} :
    tree.view path = some (.entry entry) ↔ tree.get? path = some entry := by
  constructor
  · intro seen
    rw [view] at seen
    split at seen
    · rename_i there
      cases seen
      exact there
    · split at seen <;> cases seen
  · exact view_of_get?

theorem view_eq_directory {tree : Snapshot} {path : TreePath} :
    tree.view path = some .directory ↔ tree.get? path = none ∧ tree.isDirectory path = true := by
  rw [view]
  cases tree.get? path <;> simp

theorem view_eq_none {tree : Snapshot} {path : TreePath} :
    tree.view path = none ↔ tree.get? path = none ∧ tree.isDirectory path = false := by
  rw [view]
  cases tree.get? path <;> simp

theorem isDirectory_of_above {tree : Snapshot} {outer path : TreePath} (above : outer <+: path)
    (directory : tree.isDirectory path = true) : tree.isDirectory outer = true := by
  obtain ⟨inner, entry, found, inside⟩ := isDirectory_iff.1 directory
  exact isDirectory_iff.2 ⟨inner, entry, found, TreePath.isInside_of_above above inside⟩

/-- Above all that is seen are directories. -/
theorem isDirectory_of_view {tree : Snapshot} {outer path : TreePath}
    (seen : tree.view path ≠ none) (inside : TreePath.isInside outer path = true) :
    tree.isDirectory outer = true := by
  cases found : tree.get? path with
  | some entry => exact isDirectory_iff.2 ⟨path, entry, found, inside⟩
  | none =>
      have directory : tree.isDirectory path = true := by
        rw [← Bool.not_eq_false]
        exact fun closed => seen (view_eq_none.2 ⟨found, closed⟩)
      exact isDirectory_of_above (TreePath.isInside_iff.1 inside).1 directory

/-- A snapshot of files whose paths may stand in a tree together. -/
structure Plain (tree : Snapshot) : Prop where
  files : ∀ path entry, tree.get? path = some entry → entry.isFile = true
  nonempty : ∀ path entry, tree.get? path = some entry → path ≠ []
  valid : ∀ path entry, tree.get? path = some entry → path.isValid = true
  apart : ∀ a b ea eb, tree.get? a = some ea → tree.get? b = some eb → TreePath.Apart a b

/-- A snapshot whose paths may stand in a tree together. -/
structure Proper (tree : Snapshot) : Prop where
  nonempty : ∀ path entry, tree.get? path = some entry → path ≠ []
  valid : ∀ path entry, tree.get? path = some entry → path.isValid = true
  apart : ∀ a b ea eb, tree.get? a = some ea → tree.get? b = some eb → TreePath.Apart a b

theorem Plain.proper {tree : Snapshot} (plain : tree.Plain) : tree.Proper :=
  ⟨plain.nonempty, plain.valid, plain.apart⟩

/-- No link of a snapshot is on the way to a path, or at the path. -/
def Straight (tree : Snapshot) (path : TreePath) : Prop :=
  ∀ place target, place <+: path → tree.get? place ≠ some (.link target)

theorem Straight.outer {tree : Snapshot} {path above : TreePath} (straight : tree.Straight path)
    (before : above <+: path) : tree.Straight above :=
  fun place target start => straight place target (start.trans before)

theorem Plain.straight {tree : Snapshot} (plain : tree.Plain) (path : TreePath) :
    tree.Straight path := by
  intro place target _ found
  cases plain.files place _ found

theorem plain_empty : Plain ∅ := by
  constructor <;> intros <;> contradiction

theorem get?_place {tree : Snapshot} {path other : TreePath} {entry found : Entry}
    (there : (tree.place path entry).get? other = some found) :
    path = other ∧ entry = found ∨ path ≠ other ∧ tree.get? other = some found ∧
      TreePath.Apart path other := by
  unfold place at there
  by_cases same : path = other
  · subst same
    rw [get?_insert_self] at there
    exact Or.inl ⟨rfl, Option.some.inj there⟩
  · rw [get?_insert_ne _ same, Table.get?_filter, Option.filter_eq_some_iff] at there
    obtain ⟨found, apart⟩ := there
    simp only [Bool.and_eq_true, Bool.not_eq_true'] at apart
    exact Or.inr ⟨same, found, apart.2, apart.1⟩

/-- What is apart from a placed entry stays. -/
theorem get?_place_apart {tree : Snapshot} {path other : TreePath} {entry found : Entry}
    (different : path ≠ other) (apart : TreePath.Apart path other)
    (there : tree.get? other = some found) : (tree.place path entry).get? other = some found := by
  unfold place
  rw [get?_insert_ne _ different, Table.get?_filter, there]
  simp [apart.1, apart.2]

theorem Proper.place {tree : Snapshot} (proper : tree.Proper) {path : TreePath}
    (nonempty : path ≠ []) (valid : path.isValid = true) (entry : Entry) :
    Proper (tree.place path entry) := by
  have self : TreePath.Apart path path := by
    simp [TreePath.Apart, TreePath.isInside]
  constructor
  · intro other entry there
    rcases get?_place there with ⟨rfl, -⟩ | ⟨-, found, -⟩
    · exact nonempty
    · exact proper.nonempty other entry found
  · intro other entry there
    rcases get?_place there with ⟨rfl, -⟩ | ⟨-, found, -⟩
    · exact valid
    · exact proper.valid other entry found
  · intro a b ea eb thereA thereB
    rcases get?_place thereA with ⟨rfl, -⟩ | ⟨-, foundA, apartA⟩
    · rcases get?_place thereB with ⟨rfl, -⟩ | ⟨-, -, apartB⟩
      · exact self
      · exact apartB
    · rcases get?_place thereB with ⟨rfl, -⟩ | ⟨-, foundB, -⟩
      · exact apartA.symm
      · exact proper.apart a b ea eb foundA foundB

/-- A proper snapshot with files only is plain. -/
theorem Proper.plain {tree : Snapshot} (proper : tree.Proper)
    (files : ∀ path entry, tree.get? path = some entry → entry.isFile = true) : tree.Plain :=
  ⟨files, proper.nonempty, proper.valid, proper.apart⟩

theorem Plain.place {tree : Snapshot} (plain : tree.Plain) {path : TreePath}
    (nonempty : path ≠ []) (valid : path.isValid = true) (content : Bytes) (executable : Bool) :
    Plain (tree.place path (.file content executable)) := by
  refine (plain.proper.place nonempty valid _).plain fun other entry there => ?_
  rcases get?_place there with ⟨-, rfl⟩ | ⟨-, found, -⟩
  · rfl
  · exact plain.files other entry found

theorem Proper.insert {tree : Snapshot} (proper : tree.Proper) {path : TreePath}
    (nonempty : path ≠ []) (valid : path.isValid = true)
    (apart : ∀ other entry, tree.get? other = some entry → TreePath.Apart path other)
    (entry : Entry) : Proper (tree.insert path entry) := by
  rw [← place_of_apart apart]
  exact proper.place nonempty valid entry

theorem Plain.insert {tree : Snapshot} (plain : tree.Plain) {path : TreePath}
    (nonempty : path ≠ []) (valid : path.isValid = true)
    (apart : ∀ other entry, tree.get? other = some entry → TreePath.Apart path other)
    (content : Bytes) (executable : Bool) : Plain (tree.insert path (.file content executable)) := by
  rw [← place_of_apart apart]
  exact plain.place nonempty valid content executable

theorem get?_of_erase {tree : Snapshot} {path other : TreePath} {entry : Entry}
    (found : (tree.erase path).get? other = some entry) :
    path ≠ other ∧ tree.get? other = some entry := by
  by_cases same : path = other
  · rw [← same, get?_erase_self] at found
    cases found
  · rw [get?_erase_ne tree same] at found
    exact ⟨same, found⟩

theorem Proper.erase {tree : Snapshot} (proper : tree.Proper) (path : TreePath) :
    Proper (tree.erase path) where
  nonempty other entry found := proper.nonempty other entry (get?_of_erase found).2
  valid other entry found := proper.valid other entry (get?_of_erase found).2
  apart a b ea eb foundA foundB :=
    proper.apart a b ea eb (get?_of_erase foundA).2 (get?_of_erase foundB).2

theorem Plain.erase {tree : Snapshot} (plain : tree.Plain) (path : TreePath) :
    Plain (tree.erase path) :=
  (plain.proper.erase path).plain fun other entry found =>
    plain.files other entry (get?_of_erase found).2

/-! ## The working tree after a change -/

theorem isDirectory_insert {tree : Snapshot} {path other : TreePath} (entry : Entry)
    (notAbove : ¬ other <+: path) :
    isDirectory (tree.insert path entry) other = tree.isDirectory other := by
  rw [Bool.eq_iff_iff, isDirectory_iff, isDirectory_iff]
  have away : ∀ inner, TreePath.isInside other inner = true → path ≠ inner := by
    rintro inner inside rfl
    exact notAbove (TreePath.isInside_iff.1 inside).1
  constructor
  · rintro ⟨inner, e, found, inside⟩
    rw [get?_insert_ne tree (away inner inside)] at found
    exact ⟨inner, e, found, inside⟩
  · rintro ⟨inner, e, found, inside⟩
    exact ⟨inner, e, by rw [get?_insert_ne tree (away inner inside), found], inside⟩

/-- Nothing is at a path that others are apart from, nor inside it or above it. -/
theorem get?_of_not_apart {tree : Snapshot} {path other : TreePath}
    (apart : ∀ other entry, tree.get? other = some entry → TreePath.Apart path other)
    (meets : ¬ TreePath.Apart path other) : tree.get? other = none :=
  Option.eq_none_iff_forall_ne_some.2 fun entry found => meets (apart other entry found)

/-- What is seen after an entry was inserted where no directory is in the way. -/
theorem view_insert {tree : Snapshot} {path : TreePath}
    (apart : ∀ other entry, tree.get? other = some entry → TreePath.Apart path other)
    (entry : Entry) (other : TreePath) :
    view (tree.insert path entry) other =
      if path = other then some (.entry entry)
      else if path <+: other then none
      else if other <+: path then some .directory
      else tree.view other := by
  by_cases same : path = other
  · rw [if_pos same, ← same, view_of_get? (get?_insert_self tree path entry)]
  rw [if_neg same]
  split
  · rename_i below
    have inside := TreePath.isInside_iff.2 ⟨below, same⟩
    have absent : tree.get? other = none :=
      get?_of_not_apart apart fun clear => Bool.false_ne_true (clear.1.symm.trans inside)
    have closed : isDirectory (tree.insert path entry) other = false := by
      have notAbove : ¬ other <+: path := fun above => same (TreePath.prefix_antisymm below above)
      rw [isDirectory_insert entry notAbove, Bool.eq_false_iff]
      intro directory
      obtain ⟨inner, e, found, deeper⟩ := isDirectory_iff.1 directory
      have whole := TreePath.isInside_of_above below deeper
      rw [(apart inner e found).1] at whole
      cases whole
    exact view_eq_none.2 ⟨by rw [get?_insert_ne tree same, absent], closed⟩
  split
  · rename_i above
    have inside := TreePath.isInside_iff.2 ⟨above, Ne.symm same⟩
    have absent : tree.get? other = none :=
      get?_of_not_apart apart fun clear => Bool.false_ne_true (clear.2.symm.trans inside)
    have open_ : isDirectory (tree.insert path entry) other = true :=
      isDirectory_iff.2 ⟨path, entry, get?_insert_self tree path entry, inside⟩
    exact view_eq_directory.2 ⟨by rw [get?_insert_ne tree same, absent], open_⟩
  · rename_i notAbove
    rw [view, view, get?_insert_ne tree same, isDirectory_insert entry notAbove]

/-! ## Snapshots without a path -/

section Without

/-- A snapshot without a path, what is inside it and what is above it. -/
def without (tree : Snapshot) (path : TreePath) : Snapshot :=
  tree.filter fun other _ =>
    other != path && !TreePath.isInside other path && !TreePath.isInside path other

variable {tree : Snapshot} {path other : TreePath} {entry : Entry}

theorem get?_without : (tree.without path).get? other = some entry ↔
    tree.get? other = some entry ∧ other ≠ path ∧ TreePath.Apart path other := by
  unfold without TreePath.Apart
  rw [Table.get?_filter, Option.filter_eq_some_iff]
  simp only [Bool.and_eq_true, bne_iff_ne, ne_eq, Bool.not_eq_true']
  exact and_congr_right fun _ => ⟨fun h => ⟨h.1.1, h.2, h.1.2⟩, fun h => ⟨⟨h.1, h.2.2⟩, h.2.1⟩⟩

/-- A snapshot that has entries of a proper one only is proper. -/
theorem Proper.less {sub : Snapshot} (proper : tree.Proper)
    (less : ∀ place entry, sub.get? place = some entry → tree.get? place = some entry) :
    sub.Proper where
  nonempty place entry found := proper.nonempty place entry (less place entry found)
  valid place entry found := proper.valid place entry (less place entry found)
  apart a b ea eb foundA foundB := proper.apart a b ea eb (less a ea foundA) (less b eb foundB)

theorem Proper.without (proper : tree.Proper) (path : TreePath) : (tree.without path).Proper :=
  proper.less fun _ _ found => (get?_without.1 found).1

theorem Straight.less {sub : Snapshot} (straight : tree.Straight path)
    (less : ∀ place entry, sub.get? place = some entry → tree.get? place = some entry) :
    sub.Straight path :=
  fun place target start found => straight place target start (less place _ found)

/-- Nothing is on the way to a path that a snapshot is without. -/
theorem get?_without_above (above : other <+: path) : (tree.without path).get? other = none := by
  rw [Option.eq_none_iff_forall_ne_some]
  intro entry found
  obtain ⟨-, different, apart⟩ := get?_without.1 found
  exact different (apart.symm.eq_of_above above)

/-- Where nothing has to do with a path the snapshot is without it. -/
theorem without_eq_self (absent : tree.get? path = none)
    (apart : ∀ other entry, tree.get? other = some entry → TreePath.Apart path other) :
    tree.without path = tree := by
  apply Table.ext_get?
  intro place
  apply Option.ext
  intro entry
  rw [get?_without]
  refine ⟨And.left, fun found => ⟨found, ?_, apart place entry found⟩⟩
  rintro rfl
  rw [absent] at found
  cases found

/-- Without a path below an entry is without that entry. -/
theorem without_below (proper : tree.Proper) (found : tree.get? other = some entry)
    (above : other <+: path) : tree.without path = tree.without other := by
  apply Table.ext_get?
  intro place
  apply Option.ext
  intro entry'
  rw [get?_without, get?_without]
  constructor
  · rintro ⟨there, different, apart⟩
    refine ⟨there, ?_, proper.apart _ _ _ _ found there⟩
    rintro rfl
    exact different (apart.symm.eq_of_above above)
  · rintro ⟨there, different, -⟩
    -- what has to do with the path has to do with the entry above it
    refine ⟨there, ?_, ?_, ?_⟩
    · rintro rfl
      exact different ((proper.apart _ _ _ _ found there).eq_of_above above).symm
    · rw [Bool.eq_false_iff]
      intro inside
      exact different ((proper.apart _ _ _ _ found there).eq_of_above
        (above.trans (TreePath.isInside_iff.1 inside).1)).symm
    · rw [Bool.eq_false_iff]
      intro inside
      rcases List.prefix_or_prefix_of_prefix above (TreePath.isInside_iff.1 inside).1 with
        outer | inner
      · exact different ((proper.apart _ _ _ _ found there).eq_of_above outer).symm
      · exact different ((proper.apart _ _ _ _ there found).eq_of_above inner)

/-- Elsewhere the same is seen. -/
theorem view_without (notBelow : ¬ path <+: other) (notAbove : ¬ other <+: path) :
    (tree.without path).view other = tree.view other := by
  have kept : ∀ inner entry, other <+: inner → tree.get? inner = some entry →
      (tree.without path).get? inner = some entry := by
    intro inner entry below found
    refine get?_without.2 ⟨found, ?_, ?_, ?_⟩
    · rintro rfl
      exact notAbove below
    · rw [Bool.eq_false_iff]
      intro inside
      rcases List.prefix_or_prefix_of_prefix (TreePath.isInside_iff.1 inside).1 below with
        outer | further
      · exact notBelow outer
      · exact notAbove further
    · rw [Bool.eq_false_iff]
      intro inside
      exact notAbove (below.trans (TreePath.isInside_iff.1 inside).1)
  have own : (tree.without path).get? other = tree.get? other := by
    apply Option.ext
    intro entry
    exact ⟨fun found => (get?_without.1 found).1, kept other entry (List.prefix_refl _)⟩
  have directory : (tree.without path).isDirectory other = tree.isDirectory other := by
    rw [Bool.eq_iff_iff, isDirectory_iff, isDirectory_iff]
    constructor
    · rintro ⟨inner, entry, found, inside⟩
      exact ⟨inner, entry, (get?_without.1 found).1, inside⟩
    · rintro ⟨inner, entry, found, inside⟩
      exact ⟨inner, entry, kept inner entry (TreePath.isInside_iff.1 inside).1 found, inside⟩
  rw [view, view, own, directory]

/-- Nothing is seen at the path and inside it. -/
theorem view_without_below (below : path <+: other) : (tree.without path).view other = none := by
  have absent : ∀ inner entry, path <+: inner → (tree.without path).get? inner ≠ some entry := by
    intro inner entry further found
    obtain ⟨-, different, apart⟩ := get?_without.1 found
    exact different (apart.eq_of_above further).symm
  have own : (tree.without path).get? other = none :=
    Option.eq_none_iff_forall_ne_some.2 fun entry => absent other entry below
  have closed : (tree.without path).isDirectory other = false := by
    rw [Bool.eq_false_iff]
    intro directory
    obtain ⟨inner, entry, found, inside⟩ := isDirectory_iff.1 directory
    exact absent inner entry (below.trans (TreePath.isInside_iff.1 inside).1) found
  exact view_eq_none.2 ⟨own, closed⟩

/-- Without an entry is without its path, since nothing else has to do with it. -/
theorem Proper.without_eq_erase (proper : tree.Proper) (found : tree.get? path = some entry) :
    tree.without path = tree.erase path := by
  apply Table.ext_get?
  intro place
  apply Option.ext
  intro entry'
  rw [get?_without]
  constructor
  · rintro ⟨there, different, -⟩
    rw [get?_erase_ne tree (Ne.symm different), there]
  · intro there
    obtain ⟨different, there⟩ := get?_of_erase there
    exact ⟨there, Ne.symm different, proper.apart _ _ _ _ found there⟩

end Without

end TokenBlame.Git.Snapshot
