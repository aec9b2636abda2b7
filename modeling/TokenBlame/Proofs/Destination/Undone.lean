/-
# TokenBlame.Proofs.Destination.Undone -- staging that is taken back

A destination is at a commit (`CheckedOut`) when its index and its working tree mirror the tree of
the commit, HEAD leads to it, and the index is saved.  Whatever is staged then, whether it
succeeds or stops part-way, leaves the destination astray and no worse (`Astray`): its index
has every entry that is in the working tree, no directory is left empty, no link is new, and
all else on the disk is as it was.  Each list of changes keeps this (`Astray.stage`).

So going back to HEAD leads to a destination that nothing tells apart from the one before
(`CheckedOut.reset`), and what is done from there on comes out as if nothing had been staged
(`reset_undoes_staging`).
-/
import TokenBlame.Proofs.Destination.AnyOrder
import TokenBlame.Proofs.Destination.Indistinct
import TokenBlame.Proofs.Destination.Restoring
import TokenBlame.Proofs.Git.Growth

set_option autoImplicit false

namespace TokenBlame

open Git

namespace Git.Snapshot

variable {tree other : Snapshot} {changes : List FileChange} {top : TreePath}

/-- Changes meet no link if each of them meets none in a snapshot that has the links. -/
theorem straightAll_of_links (straight : ∀ change ∈ changes, other.StraightFor change)
    (links : ∀ place target, tree.get? place = some (.link target) →
      other.get? place = some (.link target)) : tree.StraightAll changes := by
  induction changes generalizing tree with
  | nil => trivial
  | cons first rest ih =>
      refine ⟨?_, ih (fun change member => straight change (List.mem_cons_of_mem _ member))
        fun place target found => links place target (link_of_change found).2⟩
      have own := straight first List.mem_cons_self
      cases first with
      | write path content =>
          exact fun place target start found => own place target start (links place target found)
      | remove path =>
          exact fun place target start found => own place target start (links place target found)

theorem link_of_changeAll {place : TreePath} {target : Bytes}
    (found : (tree.changeAll changes).get? place = some (.link target)) :
    tree.get? place = some (.link target) := by
  induction changes generalizing tree with
  | nil => exact found
  | cons first rest ih => exact (link_of_change (ih found)).2

/-- Changes at paths that the system takes keep what can stand in a working tree. -/
theorem Standing.changeAll (standing : tree.Standing top) (takes : tree.TakesAll changes)
    (valid : ∀ change ∈ changes, (TreePath.ofString change.path).isValid = true)
    (fits : ∀ change ∈ changes, Disk.Fits top (Utf8.encode change.path)) :
    (tree.changeAll changes).Standing top := by
  induction changes generalizing tree with
  | nil => exact standing
  | cons first rest ih =>
      refine ih ?_ takes.2 (fun change member => valid change (List.mem_cons_of_mem _ member))
        fun change member => fits change (List.mem_cons_of_mem _ member)
      have own := valid first List.mem_cons_self
      cases first with
      | write path content =>
          refine ⟨standing.proper.insert (TreePath.ofString_ne_nil path) own takes.1 _,
            fun place entry found => ?_, fun place entry found => ?_⟩
          · by_cases same : TreePath.ofString path = place
            · subst same
              cases (get?_insert_self _ _ _).symm.trans found
              trivial
            · exact standing.makeable _ _ ((get?_insert_ne tree same _).symm.trans found)
          · by_cases same : TreePath.ofString path = place
            · exact ⟨path, same, fits _ List.mem_cons_self⟩
            · exact standing.taken _ _ ((get?_insert_ne tree same _).symm.trans found)
      | remove path =>
          exact ⟨standing.proper.erase _,
            fun place entry found => standing.makeable _ _ (get?_of_erase found).2,
            fun place entry found => standing.taken _ _ (get?_of_erase found).2⟩

end Git.Snapshot

namespace Destination

/-! ## At a commit, and astray -/

/-- A destination whose index and working tree mirror the commit at HEAD; the index is saved. -/
structure CheckedOut (destination : Destination) (commit : Commit) : Prop where
  mirrored : destination.Mirrored
  head : destination.repository.tipCommit = .ok (some commit)
  level : destination.index = commit.tree
  saved : destination.saved = destination.index
  /-- The saved index has its file. -/
  recorded : ∃ executable, Disk.look destination.disk (destination.home ++ Directory.indexFile) =
    some (.entry (.file [] executable))
  standing : destination.index.Standing destination.top
  ordered : Disk.Ordered destination.disk []

/-- What staging may make of a destination. -/
structure Astray (destination next : Destination) : Prop where
  mirrored : next.Mirrored
  alike : Alike destination next
  standing : next.index.Standing destination.top
  links : ∀ place target, next.index.get? place = some (.link target) →
    destination.index.get? place = some (.link target)
  /-- Nothing is left outside of the working tree. -/
  spares : Disk.Spares destination.disk next.disk destination.top
  ordered : Disk.Ordered next.disk []

section Undone

variable {destination next : Destination} {changes : List FileChange} {commit : Commit}

theorem CheckedOut.astray (checkedOut : destination.CheckedOut commit) :
    Astray destination destination :=
  ⟨checkedOut.mirrored, .refl _, checkedOut.standing, fun _ _ found => found, .refl _ _,
    checkedOut.ordered⟩

/-- Indistinct destinations are at one commit. -/
theorem CheckedOut.of_indistinct (checkedOut : destination.CheckedOut commit)
    (indistinct : Indistinct destination next) : next.CheckedOut commit := by
  obtain ⟨repository, core, rfl⟩ := indistinct
  exact ⟨⟨checkedOut.mirrored.home, checkedOut.mirrored.working, checkedOut.mirrored.proper,
    checkedOut.mirrored.holds⟩, (Repository.tipCommit_of_core core).trans checkedOut.head,
    checkedOut.level, checkedOut.saved, checkedOut.recorded, checkedOut.standing,
    checkedOut.ordered⟩

/-- To save the index changes nothing that is seen where it is saved already. -/
theorem CheckedOut.sameLooks_recordIndex (checkedOut : destination.CheckedOut commit) {disk : Disk}
    (spares : Disk.Spares destination.disk disk destination.top) :
    Disk.SameLooks (Directory.recordIndex disk destination.home) disk := by
  obtain ⟨executable, recorded⟩ := checkedOut.recorded
  have there : Disk.look disk (destination.home ++ Directory.indexFile) =
      some (.entry (.file [] executable)) := by
    rw [spares _ fun path _ outside same => ?_, recorded]
    rw [checkedOut.mirrored.home, List.append_assoc, List.append_cancel_left_eq] at same
    exact outside (same ▸ rfl)
  exact Disk.sameLooks_fill there false

/-! ## Staging -/

/-- Changes lead astray, all of them or those in front of one that is not taken. -/
theorem Astray.applyAll (astray : Astray destination next)
    (straight : ∀ change ∈ changes, destination.index.StraightFor change)
    (stageable : ∀ change ∈ changes, destination.Stageable change.path) :
    Astray destination (next.applyAll changes).2 := by
  have direct := Snapshot.straightAll_of_links straight astray.links
  have able : ∀ change ∈ changes, next.Stageable change.path :=
    fun change member => (stageable change member).of_alike astray.alike
  have spares := astray.mirrored.spares_applyAll direct fun change member =>
    (stageable change member).valid
  have ordered := ordered_applyAll astray.ordered changes
  obtain ⟨front, prefix_, takes, turned⟩ : ∃ front, front <+: changes ∧
      next.index.TakesAll front ∧
      Turned next (next.applyAll changes).2 (next.index.changeAll front) := by
    by_cases takes : next.index.TakesAll changes
    · obtain ⟨last, all, turned⟩ := astray.mirrored.applyAll_of_takes direct able takes
      rw [all]
      exact ⟨changes, List.prefix_refl _, takes, turned⟩
    · obtain ⟨error, last, front, all, -, begins, turned⟩ :=
        astray.mirrored.applyAll_stops direct able takes
      rw [all]
      exact ⟨front, begins.isPrefix, begins.takesAll, turned⟩
  refine ⟨turned.mirrored, astray.alike.trans turned.alike, ?_, ?_, ?_, ordered⟩
  · rw [turned.index]
    exact astray.standing.changeAll takes
      (fun change member => (stageable change (prefix_.subset member)).valid)
      fun change member => (stageable change (prefix_.subset member)).fits
  · intro place target found
    rw [turned.index] at found
    exact astray.links place target (Snapshot.link_of_changeAll found)
  · rw [astray.alike.top] at spares
    exact astray.spares.trans spares

theorem Astray.saveIndex (astray : Astray destination next)
    (checkedOut : destination.CheckedOut commit) : Astray destination next.saveIndex := by
  refine ⟨astray.mirrored.saveIndex, astray.alike.trans ⟨rfl, rfl, rfl⟩, astray.standing,
    astray.links, astray.spares.trans fun place _ => ?_, astray.ordered.fill _ _ _⟩
  show Disk.look (Directory.recordIndex next.disk next.home) place = _
  rw [astray.alike.home]
  exact checkedOut.sameLooks_recordIndex astray.spares place

/-- **Staging** leads astray, whether it succeeds or fails. -/
theorem Astray.stage (astray : Astray destination next) (checkedOut : destination.CheckedOut commit)
    (straight : ∀ change ∈ changes, destination.index.StraightFor change)
    (stageable : ∀ change ∈ changes, destination.Stageable change.path) :
    Astray destination (next.stage changes).2 := by
  have made := astray.applyAll (fun change member => straight change (mem_removalsFirst.1 member))
    fun change member => stageable change (mem_removalsFirst.1 member)
  rw [stage_eq astray.mirrored.working
    (checkAll_of_valid fun change member => (stageable change member).valid)]
  cases all : next.applyAll (FileChange.removalsFirst changes) with
  | mk result last =>
      rw [all] at made
      cases result with
      | error error => exact made
      | ok _ => exact made.saveIndex checkedOut

/-- Lists of changes that are staged one after the other lead astray and no further. -/
theorem Astray.acts (astray : Astray destination next) (checkedOut : destination.CheckedOut commit)
    {lists : List (List FileChange)}
    (straight : ∀ changes ∈ lists, ∀ change ∈ changes, destination.index.StraightFor change)
    (stageable : ∀ changes ∈ lists, ∀ change ∈ changes, destination.Stageable change.path) :
    Astray destination (next.acts (lists.map .stage)).2 := by
  induction lists generalizing next with
  | nil => exact astray
  | cons changes rest ih =>
      have one := astray.stage checkedOut (straight changes List.mem_cons_self)
        (stageable changes List.mem_cons_self)
      exact ih one (fun changes member => straight changes (List.mem_cons_of_mem _ member))
        fun changes member => stageable changes (List.mem_cons_of_mem _ member)

/-! ## Going back -/

/-- **Going back** from astray leads to a destination that nothing tells apart. -/
theorem CheckedOut.reset (checkedOut : destination.CheckedOut commit)
    (astray : Astray destination next) :
    ∃ restored, next.resetToHead = (.ok (), restored) ∧ Indistinct destination restored := by
  have top := astray.alike.top
  have home : next.home = destination.top ++ [TreePath.gitDirectory] := by
    rw [astray.alike.home, checkedOut.mirrored.home]
  have holds := astray.mirrored.holds
  rw [top] at holds
  obtain ⟨disk, reset, keeps, spares⟩ := resetToHead_spares home astray.mirrored.working
    ⟨holds, astray.ordered.inner _⟩ astray.standing (fun _ _ found => found)
    ((Repository.tipCommit_of_core astray.alike.core).trans checkedOut.head)
    (checkedOut.level ▸ checkedOut.standing)
    (fun place target found => checkedOut.level ▸ astray.links place target found)
  have ordered := ordered_resetToHead astray.ordered
  rw [reset] at ordered
  have same : Disk.SameLooks (Directory.recordIndex disk next.home) destination.disk := by
    have whole := astray.spares.trans spares
    rw [astray.alike.home]
    refine (checkedOut.sameLooks_recordIndex whole).trans ?_
    exact checkedOut.mirrored.holds.sameLooks (checkedOut.level ▸ keeps.holds) whole
  refine ⟨_, reset, indistinct_iff.2 ⟨astray.alike.trans ⟨rfl, rfl, rfl⟩, checkedOut.level.symm,
    ?_, same.eq ordered checkedOut.ordered⟩⟩
  rw [checkedOut.saved, checkedOut.level]

/-- **Staging that is taken back** leaves no trace: whatever lists of changes are staged, each of
them successfully or not, going back to HEAD succeeds and leads to a destination at the same
commit, and everything that is done from there comes out as it would have without them. -/
theorem reset_undoes_staging (checkedOut : destination.CheckedOut commit)
    {lists : List (List FileChange)}
    (stageable : ∀ changes ∈ lists, ∀ change ∈ changes, destination.Stageable change.path)
    (straight : ∀ changes ∈ lists, ∀ change ∈ changes, commit.tree.StraightFor change) :
    ∃ restored, (destination.acts (lists.map .stage)).2.resetToHead = (.ok (), restored) ∧
      restored.CheckedOut commit ∧ Indistinct destination restored ∧
      ∀ actions, Matches (destination.acts actions) (restored.acts actions) := by
  have astray := checkedOut.astray.acts checkedOut (checkedOut.level ▸ straight) stageable
  obtain ⟨restored, reset, indistinct⟩ := checkedOut.reset astray
  exact ⟨restored, reset, checkedOut.of_indistinct indistinct, indistinct, indistinct.acts⟩

end Undone

/-! ## Two lists that are taken back -/

namespace TakenBack

/-- A commit of a file in a directory and one at the top. -/
def first : Commit :=
  Swapped.destination.nextCommit none "first" ⟨[0x61], [0x62], 0, 0⟩

def destination : Destination :=
  Swapped.destination.withRepository (Swapped.destination.repository.advance first)

/-- A new file, and one where the directory is; and the other file becomes a directory. -/
def lists : List (List FileChange) :=
  [[.write "g" [0x7A], .write "d" []], [.remove "f", .write "f/g" []]]

theorem standing : destination.index.Standing destination.top := by
  have each : ∀ place entry, destination.index.get? place = some entry →
      (place = TreePath.ofString "d/e" ∧ entry = .file [0x78] false) ∨
        (place = TreePath.ofString "f" ∧ entry = .file [0x79] false) := by
    intro place entry found
    have inside := Table.get?_eq_some_iff.1
      (show Swapped.destination.index.get? place = some entry from found)
    rw [Swapped.entries] at inside
    simpa using inside
  have proper : Swapped.destination.index.Proper := Swapped.mirrored.proper
  refine ⟨proper, fun place entry found => ?_, fun place entry found => ?_⟩
  · rcases each place entry found with ⟨-, rfl⟩ | ⟨-, rfl⟩ <;> trivial
  · rcases each place entry found with ⟨rfl, -⟩ | ⟨rfl, -⟩
    · exact ⟨"d/e", rfl, by decide, by decide⟩
    · exact ⟨"f", rfl, by decide, by decide⟩

theorem checkedOut : destination.CheckedOut first where
  mirrored := (kept_withRepository _ _).mirrored Swapped.mirrored
  head := tipCommit_advance fun other member => by
    have none : Swapped.destination.repository.commits = [] := commits_stage _ _
    rw [none] at member
    cases member
  level := rfl
  saved := by
    obtain ⟨-, -, -, index, saved⟩ := Swapped.mirrored_empty.of_stage_ok
      (Snapshot.plain_empty.straightAll _) (by decide) Swapped.staged
    exact saved.trans index.symm
  recorded := ⟨false, by decide +kernel⟩
  standing := standing
  ordered := by
    refine ordered_recordBranches (ordered_stage (ordered_create ?_ _ _) _) _ _ _
    exact (Disk.ordered_vacant []).put (Disk.ordered_vacant []) [Utf8.encode "out"]

end TakenBack

/-- What was made in front of the change that failed, and what was staged behind it, is taken back;
the file that is committed next is on top of HEAD as if it had been the first one. -/
theorem failed_staging_undone :
    (∃ error, (TakenBack.destination.stage [.write "g" [0x7A], .write "d" []]).1 = .error error) ∧
    ∃ restored,
      (TakenBack.destination.acts (TakenBack.lists.map .stage)).2.resetToHead = (.ok (), restored) ∧
      restored.CheckedOut TakenBack.first ∧
      Matches (TakenBack.destination.acts [.stage [.write "h" []], .commit "second" {} 0 0])
        (restored.acts [.stage [.write "h" []], .commit "second" {} 0 0]) := by
  have failed : (TakenBack.destination.stage [.write "g" [0x7A], .write "d" []]).1 ≠ .ok () := by
    decide +kernel
  have stageable : ∀ changes ∈ TakenBack.lists, ∀ change ∈ changes,
      TakenBack.destination.Stageable change.path := by
    have each : ∀ changes ∈ TakenBack.lists, ∀ change ∈ changes,
        ((Disk.Route.within Swapped.top (Utf8.encode change.path)).fault? = none ∧
          ∀ name ∈ TreePath.split (Utf8.encode change.path), name.length ≤ Disk.maxName) ∧
        (TreePath.ofString change.path).isValid = true := by
      decide
    exact fun changes member change inside =>
      have own := each changes member change inside
      ⟨⟨own.1.1, own.1.2⟩, own.2⟩
  have straight : ∀ changes ∈ TakenBack.lists, ∀ change ∈ changes,
      TakenBack.first.tree.StraightFor change := by
    intro changes _ change _
    cases change with
    | write path content => exact fun place target _ => Swapped.unlinked place target
    | remove path => exact fun place target _ => Swapped.unlinked place target
  obtain ⟨restored, reset, checkedOut, -, later⟩ :=
    reset_undoes_staging TakenBack.checkedOut stageable straight
  refine ⟨?_, restored, reset, checkedOut, later _⟩
  cases result : (TakenBack.destination.stage [.write "g" [0x7A], .write "d" []]).1 with
  | error error => exact ⟨error, rfl⟩
  | ok done => exact absurd result failed

end Destination

end TokenBlame
