/-
# TokenBlame.Proofs.Transcode.Sound -- destinations that can go back to HEAD

A clean destination is sound when all paths of its index and of the commit at HEAD are such
as the system takes (`Sound`).  Whatever is done to a sound destination leaves a sound one:
changes are staged, all of them or up to one that the index does not take (`Sound.stage`,
`Sound.stage_stops`), what was staged is committed (`Sound.advance`), and the destination
goes back to HEAD (`Sound.resetToHead`).

Where there is no commit at HEAD nothing is taken out of the working tree, so going back
leads to a sound destination only if nothing was staged.
-/
import TokenBlame.Proofs.Destination.Restoring
import TokenBlame.Proofs.Transcode.Delta

set_option autoImplicit false

namespace TokenBlame

open Git

/-- Changes at paths that the system takes lead to a snapshot of such paths. -/
theorem Git.Snapshot.Fitting.changeAll {tree : Snapshot} {top : TreePath}
    (fitting : tree.Fitting top) {changes : List FileChange}
    (plain : (tree.changeAll changes).Plain)
    (fits : ∀ change ∈ changes, Disk.Fits top (Utf8.encode change.path)) :
    (tree.changeAll changes).Fitting top := by
  refine ⟨plain, fun place entry found => ?_⟩
  rcases Snapshot.get?_of_changeAll found with old | ⟨change, member, same⟩
  · exact fitting.taken place entry old
  · exact ⟨change.path, same, fits change member⟩

namespace Transcode

/-- A clean destination on top of a commit, in which files are at paths that the system takes
only. -/
structure Sound (destination : Destination) (parent : Option Commit) : Prop where
  clean : destination.Clean
  ordered : Disk.Ordered destination.disk destination.top
  grown : Grown destination.repository.commits
  tip : destination.repository.tipCommit = .ok parent
  index : destination.index.Fitting destination.top
  head : (headFiles parent).Fitting destination.top

section Sound

variable {destination next : Destination} {parent : Option Commit} {changes : List FileChange}

theorem Sound.keeps (sound : Sound destination parent) :
    destination.disk.Keeps destination.top destination.index :=
  ⟨sound.clean.holds, sound.ordered⟩

/-- What counts of a destination is its index, its history and its own part of the disk. -/
theorem Sound.of_alike (sound : Sound destination parent)
    (alike : Destination.Alike destination next) (clean : next.Clean)
    (ordered : Disk.Ordered next.disk destination.top)
    (index : next.index.Fitting destination.top) : Sound next parent := by
  have place := alike.top
  refine ⟨clean, place ▸ ordered, ?_, ?_, place ▸ index, place ▸ sound.head⟩
  · rw [(Repository.core_eq_iff.1 alike.core).1]
    exact sound.grown
  · rw [Repository.tipCommit_of_core alike.core, sound.tip]

/-- What is stored apart from the commits does not count either. -/
theorem Sound.stored (sound : Sound destination parent) {repository : Repository}
    (core : repository.core = destination.repository.core) :
    Sound { destination with repository } parent :=
  sound.of_alike ⟨rfl, rfl, core⟩
    ⟨sound.clean.home, sound.clean.working, sound.clean.plain, sound.clean.holds⟩
    sound.ordered sound.index

/-! ## Staging -/

/-- **Changes that the index takes** are staged. -/
theorem Sound.stage (sound : Sound destination parent)
    (stageable : ∀ change ∈ changes, destination.Stageable change.path)
    (takes : destination.index.TakesAll (FileChange.removalsFirst changes)) :
    ∃ next, destination.stage changes = (.ok (), next) ∧ Sound next parent ∧
      Destination.Alike destination next ∧
      next.index = destination.index.changeAll (FileChange.removalsFirst changes) ∧
      next.saved = destination.index.changeAll (FileChange.removalsFirst changes) := by
  obtain ⟨next, staged, clean, alike, index, saved⟩ :=
    sound.clean.stage_of_takes stageable takes
  have ordered := Destination.ordered_stage sound.ordered changes
  rw [staged] at ordered
  refine ⟨next, staged, sound.of_alike alike clean ordered ?_, alike, index, saved⟩
  have plain := clean.plain
  rw [index] at plain ⊢
  exact sound.index.changeAll plain fun change member =>
    (stageable change (Destination.mem_removalsFirst.1 member)).fits

/-- **Changes that the index does not take** are staged up to the first that cannot be. -/
theorem Sound.stage_stops (sound : Sound destination parent)
    (stageable : ∀ change ∈ changes, destination.Stageable change.path)
    (stops : ¬ destination.index.TakesAll (FileChange.removalsFirst changes)) :
    ∃ error next front, destination.stage changes = (.error error, next) ∧
      error.isFatal = false ∧
      destination.index.StopsBehind (FileChange.removalsFirst changes) front ∧
      Sound next parent ∧ Destination.Alike destination next ∧
      next.index = destination.index.changeAll front := by
  obtain ⟨error, next, front, failed, mild, behind, became⟩ :=
    sound.clean.stage_stops stageable stops
  have ordered := Destination.ordered_stage sound.ordered changes
  rw [failed] at ordered
  refine ⟨error, next, front, failed, mild, behind,
    sound.of_alike became.alike became.clean ordered ?_, became.alike, became.index⟩
  have plain := became.clean.plain
  rw [became.index] at plain ⊢
  exact sound.index.changeAll plain fun change member =>
    (stageable change (Destination.mem_removalsFirst.1 (behind.isPrefix.subset member))).fits

/-! ## Committing -/

/-- **A commit of the index** on top of HEAD leads to a sound destination on top of it. -/
theorem Sound.advance (sound : Sound destination parent) {made : Commit}
    (tree : made.tree = destination.index)
    (parents : made.parents = (parent.map (·.id)).toList)
    (admits : destination.repository.Admits made) :
    Sound (destination.withRepository (destination.repository.advance made)) (some made) := by
  have kept := Destination.kept_withRepository destination (destination.repository.advance made)
  have grown := grown_advance sound.grown sound.tip parents
  have files : headFiles (some made) = destination.index := tree
  refine ⟨kept.clean sound.clean, ?_, grown, tipCommit_advance admits, ?_, ?_⟩
  · rw [kept.top]
    exact (Destination.keeps_recordBranches sound.clean.home sound.keeps _ _).ordered
  · rw [kept.top, kept.index]
    exact sound.index
  · rw [kept.top, files]
    exact sound.index

/-! ## Going back -/

/-- **Going back to HEAD** leads to a sound destination with the files of HEAD, unless
something was staged and there is no commit at HEAD. -/
theorem Sound.resetToHead (sound : Sound destination parent)
    (unborn : parent = none → destination.index = ∅) :
    ∃ next, destination.resetToHead = (.ok (), next) ∧ Sound next parent ∧
      Destination.Alike destination next ∧ next.index = headFiles parent ∧
      next.saved = headFiles parent := by
  cases parent with
  | none =>
      have empty := unborn rfl
      obtain ⟨disk, reset, keeps⟩ :=
        Destination.resetToHead_unborn sound.clean.home sound.keeps sound.tip
      have alike : Destination.Alike destination
          { destination with disk, index := ∅, saved := ∅ } := ⟨rfl, rfl, rfl⟩
      rw [empty] at keeps
      exact ⟨_, reset, sound.of_alike alike
        ⟨sound.clean.home, sound.clean.working, Snapshot.plain_empty, keeps.holds⟩
        keeps.ordered (empty ▸ sound.index), alike, rfl, rfl⟩
  | some commit =>
      obtain ⟨disk, reset, keeps⟩ := Destination.resetToHead_commit sound.clean.home
        sound.clean.working sound.keeps sound.index (fun _ _ found => found) sound.tip sound.head
      have alike : Destination.Alike destination
          { destination with disk, index := commit.tree, saved := commit.tree } := ⟨rfl, rfl, rfl⟩
      exact ⟨_, reset, sound.of_alike alike
        ⟨sound.clean.home, sound.clean.working, sound.head.plain, keeps.holds⟩
        keeps.ordered sound.head, alike, rfl, rfl⟩

end Sound

/-- The log is not in the working tree. -/
def State.Apart (state : State) : Prop :=
  ∀ place, state.logPlace = some place → ¬ state.destination.top <+: place

section SetBack

variable {state : State} {parent : Option Commit}

/-- A line in a log that is not in the working tree leaves the destination sound. -/
theorem Sound.record (sound : Sound state.destination parent) (apart : state.Apart)
    (commit : SourceCommit) : Sound (state.record commit).destination parent := by
  have keeps : (state.record commit).destination.disk.Keeps state.destination.top
      state.destination.index := by
    show (state.logPlace.elim state.destination.disk _).Keeps _ _
    cases place : state.logPlace with
    | none => exact sound.keeps
    | some place' => exact keeps_append sound.keeps (apart place' place) _
  exact sound.of_alike ⟨rfl, rfl, rfl⟩
    ⟨sound.clean.home, sound.clean.working, sound.clean.plain, keeps.holds⟩ keeps.ordered
    sound.index

/-- **A commit that failed** is recorded, and the destination goes back to HEAD. -/
theorem Sound.setBack (state : State) (sound : Sound state.destination parent)
    (apart : state.Apart) (unborn : parent = none → state.destination.index = ∅)
    (commit : SourceCommit) :
    ∃ next, setBack state commit = (.ok (), next) ∧ Sound next.destination parent ∧
      Destination.Alike state.destination next.destination ∧
      next.destination.index = headFiles parent ∧ next.destination.saved = headFiles parent ∧
      next.log = state.log.record commit ∧ next.logPlace = state.logPlace := by
  obtain ⟨destination, reset, sound', alike, index, saved⟩ :=
    (sound.record apart commit).resetToHead unborn
  exact ⟨{ state.record commit with destination }, setBack_of_reset reset, sound',
    ⟨alike.home, alike.bare, alike.core⟩, index, saved, rfl, rfl⟩

end SetBack

end Transcode

end TokenBlame
