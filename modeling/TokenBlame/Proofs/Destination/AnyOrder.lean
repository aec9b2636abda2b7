/-
# TokenBlame.Proofs.Destination.AnyOrder -- changes that can be staged in any order

Changes of different paths are consistent with a snapshot (`Snapshot.Consistent`) when each
path that is removed is there and no path that remains is a directory of another.  A
directory may become a file then, and a file a directory, at any depth.

What is removed first leaves room for what is written (`Consistent.takesAll`), so consistent
changes are staged into a mirrored destination if and only if the system takes their paths,
and in whichever order they are given the result is the same (`stage_in_any_order`).  A
written path must not be that of a link, since the file that the link leads to would be
written instead of it.
-/
import TokenBlame.Proofs.Destination.Leading
import TokenBlame.Proofs.Destination.Sheltered

set_option autoImplicit false

namespace TokenBlame

open Git

namespace Git.Snapshot

variable {tree next : Snapshot} {changes : List FileChange} {place : TreePath}

/-! ## Consistent changes -/

/-- The paths that there are behind changes: those that were there and are not removed, and
those that are written. -/
def Remains (tree : Snapshot) (changes : List FileChange) (place : TreePath) : Prop :=
  (∃ entry, tree.get? place = some entry) ∧
      (∀ path, .remove path ∈ changes → TreePath.ofString path ≠ place) ∨
    ∃ path content, .write path content ∈ changes ∧ TreePath.ofString path = place

/-- Changes of different paths that leave no path inside another one. -/
structure Consistent (tree : Snapshot) (changes : List FileChange) : Prop where
  distinct : (changes.map FileChange.path).Nodup
  valid : ∀ change ∈ changes, (TreePath.ofString change.path).isValid = true
  tracked : ∀ path, .remove path ∈ changes →
    ∃ entry, tree.get? (TreePath.ofString path) = some entry
  apart : ∀ a b, tree.Remains changes a → tree.Remains changes b → TreePath.Apart a b

/-- What changes lead to: the paths that remain, with the content that is written, and elsewhere
with the entry that they had.  A file that is written again keeps its permission. -/
structure Becomes (tree next : Snapshot) (changes : List FileChange) : Prop where
  paths : ∀ place, (∃ entry, next.get? place = some entry) ↔ tree.Remains changes place
  written : ∀ path content, .write path content ∈ changes →
    next.get? (TreePath.ofString path) =
      some (.file content (Disk.isExecutable (tree.view (TreePath.ofString path))))
  kept : ∀ place entry, next.get? place = some entry →
    (∀ path content, .write path content ∈ changes → TreePath.ofString path ≠ place) →
    tree.get? place = some entry

theorem Remains.perm {others : List FileChange} (perm : others.Perm changes)
    (remains : tree.Remains others place) : tree.Remains changes place := by
  rcases remains with ⟨there, away⟩ | ⟨path, content, member, same⟩
  · exact Or.inl ⟨there, fun path member => away path (perm.mem_iff.2 member)⟩
  · exact Or.inr ⟨path, content, perm.mem_iff.1 member, same⟩

/-- The order of the changes does not count. -/
theorem Consistent.perm (consistent : tree.Consistent changes) {others : List FileChange}
    (perm : others.Perm changes) : tree.Consistent others where
  distinct := (perm.map FileChange.path).nodup_iff.2 consistent.distinct
  valid change member := consistent.valid change (perm.mem_iff.1 member)
  tracked path member := consistent.tracked path (perm.mem_iff.1 member)
  apart a b left right := consistent.apart a b (left.perm perm) (right.perm perm)

theorem Becomes.perm (becomes : tree.Becomes next changes) {others : List FileChange}
    (perm : others.Perm changes) : tree.Becomes next others where
  paths place := (becomes.paths place).trans ⟨Remains.perm perm.symm, Remains.perm perm⟩
  written path content member := becomes.written path content (perm.mem_iff.1 member)
  kept place entry found away := becomes.kept place entry found fun path content member =>
    away path content (perm.mem_iff.2 member)

/-- Changes lead to one snapshot. -/
theorem Becomes.unique {other : Snapshot} (becomes : tree.Becomes next changes)
    (also : tree.Becomes other changes) : next = other := by
  apply Table.ext_get?
  intro place
  by_cases wrote : ∃ path content, .write path content ∈ changes ∧ TreePath.ofString path = place
  · obtain ⟨path, content, member, rfl⟩ := wrote
    rw [becomes.written path content member, also.written path content member]
  · have away : ∀ path content, .write path content ∈ changes → TreePath.ofString path ≠ place :=
      fun path content member same => wrote ⟨path, content, member, same⟩
    cases found : next.get? place with
    | some entry =>
        obtain ⟨entry', there⟩ := (also.paths place).2 ((becomes.paths place).1 ⟨entry, found⟩)
        have own := becomes.kept place entry found away
        rw [also.kept place entry' there away] at own
        rw [there, own]
    | none =>
        cases there : other.get? place with
        | none => rfl
        | some entry =>
            obtain ⟨entry', there'⟩ :=
              (becomes.paths place).2 ((also.paths place).1 ⟨entry, there⟩)
            cases found.symm.trans there'

/-! ## Room for all of them -/

/-- **Consistent changes** can be made one after the other when the removals go first. -/
theorem Consistent.takesAll (consistent : tree.Consistent changes) (proper : tree.Proper) :
    tree.TakesAll (FileChange.removalsFirst changes) := by
  refine takesAll_removalsFirst consistent.apart ?_ ?_ ?_
  · intro path member place _ there
    obtain ⟨entry, found⟩ := consistent.tracked path member
    exact proper.apart _ _ _ _ found there
  · exact fun place entry found away => Or.inl ⟨⟨entry, found⟩, away⟩
  · exact fun path content member => Or.inr ⟨path, content, member, rfl⟩

/-- What consistent changes lead to. -/
theorem Consistent.becomes (consistent : tree.Consistent changes) :
    tree.Becomes (tree.changeAll (FileChange.removalsFirst changes)) changes := by
  have distinct := Destination.nodup_removalsFirst consistent.distinct
  have wrote : ∀ path content, .write path content ∈ changes →
      (tree.changeAll (FileChange.removalsFirst changes)).get? (TreePath.ofString path) =
        some (.file content (Disk.isExecutable (tree.view (TreePath.ofString path)))) :=
    fun path content member =>
      get?_changeAll_write distinct (Destination.mem_removalsFirst.2 member)
  have gone : ∀ path, .remove path ∈ changes →
      (tree.changeAll (FileChange.removalsFirst changes)).get? (TreePath.ofString path) = none :=
    fun path member => get?_changeAll_remove distinct (Destination.mem_removalsFirst.2 member)
  have other : ∀ place, (∀ path, .remove path ∈ changes → TreePath.ofString path ≠ place) →
      (∀ path content, .write path content ∈ changes → TreePath.ofString path ≠ place) →
      (tree.changeAll (FileChange.removalsFirst changes)).get? place = tree.get? place := by
    intro place unremoved unwritten
    refine get?_changeAll_other fun change member => ?_
    have member := Destination.mem_removalsFirst.1 member
    cases change with
    | write path content => exact unwritten path content member
    | remove path => exact unremoved path member
  have unremoved : ∀ place entry,
      (tree.changeAll (FileChange.removalsFirst changes)).get? place = some entry →
      ∀ path, .remove path ∈ changes → TreePath.ofString path ≠ place := by
    rintro place entry found path member rfl
    cases found.symm.trans (gone path member)
  refine ⟨fun place => ⟨?_, ?_⟩, wrote, ?_⟩
  · rintro ⟨entry, found⟩
    by_cases written : ∃ path content, .write path content ∈ changes ∧
        TreePath.ofString path = place
    · exact Or.inr written
    · have unwritten : ∀ path content, .write path content ∈ changes →
          TreePath.ofString path ≠ place :=
        fun path content member same => written ⟨path, content, member, same⟩
      have away := unremoved place entry found
      exact Or.inl ⟨⟨entry, other place away unwritten ▸ found⟩, away⟩
  · rintro (⟨⟨entry, there⟩, away⟩ | ⟨path, content, member, rfl⟩)
    · by_cases written : ∃ path content, .write path content ∈ changes ∧
          TreePath.ofString path = place
      · obtain ⟨path, content, member, rfl⟩ := written
        exact ⟨_, wrote path content member⟩
      · refine ⟨entry, (other place away fun path content member same => ?_).trans there⟩
        exact written ⟨path, content, member, same⟩
    · exact ⟨_, wrote path content member⟩
  · intro place entry found unwritten
    exact other place (unremoved place entry found) unwritten ▸ found

/-- Changes that are taken meet no link, if no file is written where a link is. -/
theorem straightAll_of_takesAll (takes : tree.TakesAll changes)
    (direct : ∀ path content, .write path content ∈ changes →
      ∀ target, tree.get? (TreePath.ofString path) ≠ some (.link target)) :
    tree.StraightAll changes := by
  induction changes generalizing tree with
  | nil => trivial
  | cons first rest ih =>
      obtain ⟨own, later⟩ := takes
      -- no entry is above a path that is taken
      have above : ∀ other entry, other <+: TreePath.ofString first.path →
          tree.get? other = some entry → other = TreePath.ofString first.path :=
        fun other entry start found => (own other entry found).symm.eq_of_above start
      refine ⟨?_, ih later fun path content member target found =>
        direct path content (List.mem_cons_of_mem _ member) target (link_of_change found).2⟩
      cases first with
      | write path content =>
          intro other target start found
          obtain rfl := above other _ start found
          exact direct path content List.mem_cons_self target found
      | remove path =>
          intro other target start found
          have same := above other _ (start.trans (List.dropLast_prefix _)) found
          have length := start.length_le
          have some := List.length_pos_iff.2 (TreePath.ofString_ne_nil path)
          rw [same, List.length_dropLast] at length
          have same : (FileChange.remove path).path = path := rfl
          rw [same] at length
          omega

end Git.Snapshot

namespace Destination

section Staging

variable {destination next : Destination} {changes : List FileChange}

/-- Consistent changes that were made have paths that the system takes. -/
theorem Mirrored.stageable_of_applyAll_ok (mirrored : destination.Mirrored)
    (straight : destination.index.StraightAll changes)
    (distinct : (changes.map FileChange.path).Nodup)
    (valid : ∀ change ∈ changes, (TreePath.ofString change.path).isValid = true)
    (tracked : ∀ path, .remove path ∈ changes →
      ∃ entry, destination.index.get? (TreePath.ofString path) = some entry)
    (applied : destination.applyAll changes = (.ok (), next)) :
    ∀ change ∈ changes, destination.Stageable change.path := by
  induction changes generalizing destination with
  | nil => exact fun _ member => nomatch member
  | cons first rest ih =>
      obtain ⟨middle, made, applied⟩ := Destination.of_applyAll_ok applied
      obtain ⟨other, distinct⟩ := List.nodup_cons.1 (List.map_cons ▸ distinct)
      obtain ⟨-, turned, fits⟩ :=
        mirrored.of_apply_ok straight.1 (valid first List.mem_cons_self) made
      have own : destination.Stageable first.path := by
        refine fits fun removal absent => ?_
        cases first with
        | write path content => cases removal
        | remove path =>
            obtain ⟨entry, found⟩ := tracked path List.mem_cons_self
            cases absent.symm.trans found
      have later := ih turned.mirrored (by rw [turned.index]; exact straight.2) distinct
        (fun change member => valid change (List.mem_cons_of_mem _ member))
        (fun path member => by
          obtain ⟨entry, found⟩ := tracked path (List.mem_cons_of_mem _ member)
          refine ⟨entry, ?_⟩
          rw [turned.index, Snapshot.get?_change_ne, found]
          intro same
          rw [TreePath.ofString_injective same] at other
          exact other (List.mem_map_of_mem (f := FileChange.path) member)) applied
      intro change member
      rcases List.mem_cons.1 member with rfl | member
      · exact own
      · exact (later change member).of_alike turned.alike.symm

/-- What was staged into one mirrored destination in two ways, with one index in the end, looks the
same. -/
theorem Mirrored.sameLooks_stage (mirrored : destination.Mirrored) {others : List FileChange}
    {twin : Destination}
    (straight : destination.index.StraightAll (FileChange.removalsFirst changes))
    (valid : ∀ change ∈ changes, (TreePath.ofString change.path).isValid = true)
    (straight' : destination.index.StraightAll (FileChange.removalsFirst others))
    (valid' : ∀ change ∈ others, (TreePath.ofString change.path).isValid = true)
    (staged : destination.stage changes = (.ok (), next))
    (also : destination.stage others = (.ok (), twin)) (index : twin.index = next.index) :
    Disk.SameLooks twin.disk next.disk := by
  have ordered : ∀ change ∈ FileChange.removalsFirst changes,
      (TreePath.ofString change.path).isValid = true :=
    fun change member => valid change (mem_removalsFirst.1 member)
  have ordered' : ∀ change ∈ FileChange.removalsFirst others,
      (TreePath.ofString change.path).isValid = true :=
    fun change member => valid' change (mem_removalsFirst.1 member)
  obtain ⟨-, -, middle, all, rfl⟩ := Destination.of_stage_ok staged
  obtain ⟨-, -, middle', all', rfl⟩ := Destination.of_stage_ok also
  obtain ⟨-, turned⟩ := mirrored.of_applyAll_ok straight ordered all
  obtain ⟨-, turned'⟩ := mirrored.of_applyAll_ok straight' ordered' all'
  have same : Disk.SameLooks middle'.disk middle.disk := by
    have holds := turned.mirrored.holds
    have holds' := turned'.mirrored.holds
    have index : middle'.index = middle.index := index
    rw [turned.alike.top] at holds
    rw [turned'.alike.top, index] at holds'
    refine holds.sameLooks holds' fun place away => ?_
    have one := mirrored.spares_applyAll straight ordered place away
    have two := mirrored.spares_applyAll straight' ordered' place away
    rw [all] at one
    rw [all'] at two
    exact two.trans one.symm
  show Disk.SameLooks (Directory.recordIndex middle'.disk middle'.home)
    (Directory.recordIndex middle.disk middle.home)
  rw [turned.alike.home, turned'.alike.home]
  exact same.fill _ _ _

/-- **Consistent changes** of a mirrored destination are staged if and only if the system takes
all their paths, unless a file is written where a link is.  The index then has the paths that
remain, with what was written, and is saved; the working tree mirrors it; and the same changes
in any other order have the same result, up to what is seen on the whole disk. -/
theorem stage_in_any_order (mirrored : destination.Mirrored)
    (consistent : destination.index.Consistent changes)
    (direct : ∀ path content, .write path content ∈ changes →
      ∀ target, destination.index.get? (TreePath.ofString path) ≠ some (.link target)) :
    ((∀ change ∈ changes, Disk.Fits destination.top (Utf8.encode change.path)) →
      ∃ next, destination.stage changes = (.ok (), next) ∧ next.Mirrored ∧
        Alike destination next ∧ destination.index.Becomes next.index changes ∧
        next.saved = next.index ∧
        ∀ others : List FileChange, others.Perm changes →
          ∃ twin, destination.stage others = (.ok (), twin) ∧ Alike next twin ∧
            twin.index = next.index ∧ twin.saved = next.saved ∧
            Disk.SameLooks twin.disk next.disk) ∧
    ((∃ change ∈ changes, ¬ Disk.Fits destination.top (Utf8.encode change.path)) →
      ∃ error next, destination.stage changes = (.error error, next)) := by
  have straight : ∀ others : List FileChange, others.Perm changes →
      destination.index.StraightAll (FileChange.removalsFirst others) := fun others perm =>
    Snapshot.straightAll_of_takesAll ((consistent.perm perm).takesAll mirrored.proper)
      fun path content member => direct path content (perm.mem_iff.1 (mem_removalsFirst.1 member))
  constructor
  · intro fits
    have staged : ∀ others : List FileChange, others.Perm changes →
        ∃ next, destination.stage others = (.ok (), next) ∧ next.Mirrored ∧
          Alike destination next ∧ destination.index.Becomes next.index changes ∧
          next.saved = next.index := by
      intro others perm
      have own := consistent.perm perm
      obtain ⟨next, staged, mirrored', alike, index, saved⟩ :=
        mirrored.stage_of_takes (straight others perm)
          (fun change member => ⟨fits change (perm.mem_iff.1 member), own.valid change member⟩)
          (own.takesAll mirrored.proper)
      refine ⟨next, staged, mirrored', alike, ?_, saved.trans index.symm⟩
      rw [index]
      exact own.becomes.perm perm.symm
    obtain ⟨next, made, mirrored', alike, becomes, saved⟩ := staged changes (.refl _)
    refine ⟨next, made, mirrored', alike, becomes, saved, fun others perm => ?_⟩
    obtain ⟨twin, made', -, alike', becomes', saved'⟩ := staged others perm
    have index : twin.index = next.index := becomes'.unique becomes
    exact ⟨twin, made', alike.symm.trans alike', index, by rw [saved', saved, index],
      mirrored.sameLooks_stage (straight changes (.refl _)) consistent.valid (straight others perm)
        (consistent.perm perm).valid made made' index⟩
  · rintro ⟨change, member, unfit⟩
    have distinct := nodup_removalsFirst consistent.distinct
    rw [stage_eq mirrored.working (checkAll_of_valid consistent.valid)]
    cases all : destination.applyAll (FileChange.removalsFirst changes) with
    | mk result next =>
        cases result with
        | error error => exact ⟨error, next, rfl⟩
        | ok _ =>
            have stageable := mirrored.stageable_of_applyAll_ok (straight changes (.refl _)) distinct
              (fun change member => consistent.valid change (mem_removalsFirst.1 member))
              (fun path member => consistent.tracked path (mem_removalsFirst.1 member)) all
            exact absurd (stageable change (mem_removalsFirst.2 member)).fits unfit

end Staging

/-! ## A file and a directory -/

namespace Swapped

def top : TreePath := [Utf8.encode "out"]

def home : TreePath := top ++ [TreePath.gitDirectory]

/-- A new repository. -/
def empty : Destination :=
  .on {} (Directory.create (.directory [(Utf8.encode "out", .vacant)]) home false) home

/-- A file in a directory, and one at the top. -/
def files : List FileChange := [.write "d/e" [0x78], .write "f" [0x79]]

def destination : Destination := (empty.stage files).2

/-- The directory becomes a file, and the file a directory. -/
def changes : List FileChange :=
  [.write "d" [0x7A], .write "f/g" [], .remove "d/e", .remove "f"]

theorem mirrored_empty : empty.Mirrored where
  home := rfl
  working := rfl
  proper := Snapshot.plain_empty.proper
  holds := (Disk.holds_vacant (show Disk.Node.at? (.directory [(Utf8.encode "out", .vacant)]) top =
    some .vacant by rfl)).create false

theorem staged : empty.stage files = (.ok (), destination) :=
  Prod.ext (show (empty.stage files).1 = .ok () by decide +kernel) rfl

theorem mirrored : destination.Mirrored :=
  (mirrored_empty.of_stage_ok (Snapshot.plain_empty.straightAll _) (by decide) staged).2.1

theorem entries : destination.index.entries =
    [(TreePath.ofString "d/e", .file [0x78] false), (TreePath.ofString "f", .file [0x79] false)] := by
  decide +kernel

theorem unlinked (place : TreePath) (target : Bytes) :
    destination.index.get? place ≠ some (.link target) := by
  intro found
  have inside := Table.get?_eq_some_iff.1 found
  rw [entries] at inside
  simp at inside

theorem remains {place : TreePath} (remains : destination.index.Remains changes place) :
    place ∈ [TreePath.ofString "d", TreePath.ofString "f/g"] := by
  rcases remains with ⟨⟨entry, there⟩, away⟩ | ⟨path, content, member, rfl⟩
  · have inside := Table.get?_eq_some_iff.1 there
    rw [entries] at inside
    simp only [List.mem_cons, Prod.mk.injEq, List.not_mem_nil, or_false] at inside
    rcases inside with ⟨rfl, -⟩ | ⟨rfl, -⟩
    · exact absurd rfl (away "d/e" (by simp [changes]))
    · exact absurd rfl (away "f" (by simp [changes]))
  · simp only [changes, List.mem_cons, FileChange.write.injEq, List.not_mem_nil, or_false,
      reduceCtorEq] at member
    rcases member with ⟨rfl, -⟩ | ⟨rfl, -⟩ <;> simp

theorem consistent : destination.index.Consistent changes where
  distinct := by decide
  valid := by decide
  tracked := by
    intro path member
    simp only [changes, List.mem_cons, FileChange.remove.injEq, List.not_mem_nil, or_false,
      reduceCtorEq, false_or] at member
    rcases member with rfl | rfl
    · exact ⟨.file [0x78] false, by decide +kernel⟩
    · exact ⟨.file [0x79] false, by decide +kernel⟩
  apart := by
    intro a b left right
    have each : ∀ a ∈ [TreePath.ofString "d", TreePath.ofString "f/g"],
        ∀ b ∈ [TreePath.ofString "d", TreePath.ofString "f/g"],
          TreePath.isInside a b = false ∧ TreePath.isInside b a = false := by decide
    exact each a (remains left) b (remains right)

end Swapped

/-- A file and a directory take each other's kind in one list of changes, whose order does not
count. -/
theorem swapped_files_staged :
    ∃ next, Swapped.destination.stage Swapped.changes = (.ok (), next) ∧ next.Mirrored ∧
      next.index.entries = [(TreePath.ofString "d", .file [0x7A] false),
        (TreePath.ofString "f/g", .file [] false)] ∧
      ∃ twin, Swapped.destination.stage Swapped.changes.reverse = (.ok (), twin) ∧
        twin.index = next.index ∧ Disk.SameLooks twin.disk next.disk := by
  have fits : ∀ change ∈ Swapped.changes,
      Disk.Fits Swapped.destination.top (Utf8.encode change.path) := by
    have each : ∀ change ∈ Swapped.changes,
        (Disk.Route.within Swapped.top (Utf8.encode change.path)).fault? = none ∧
          ∀ name ∈ TreePath.split (Utf8.encode change.path), name.length ≤ Disk.maxName := by
      decide
    exact fun change member => ⟨(each change member).1, (each change member).2⟩
  obtain ⟨next, made, mirrored, -, -, -, orders⟩ :=
    (stage_in_any_order Swapped.mirrored Swapped.consistent fun _ _ _ => Swapped.unlinked _).1 fits
  obtain ⟨twin, also, -, index, -, looks⟩ := orders _ (List.reverse_perm _)
  refine ⟨next, made, mirrored, ?_, twin, also, index, looks⟩
  have own : next = (Swapped.destination.stage Swapped.changes).2 := by rw [made]
  rw [own]
  decide +kernel

end Destination

end TokenBlame
