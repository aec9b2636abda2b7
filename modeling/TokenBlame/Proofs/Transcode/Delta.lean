/-
# TokenBlame.Proofs.Transcode.Delta -- what one commit changes

A commit that is sealed on a clean destination has the tree of the index with the changes of
its source commit (`Makes`, `makes_of_convert`).  Its changes are at its paths, one at each
(`map_path_of_changes`), so on top of HEAD it brings each of these paths to its state in the
source commit and leaves everything else as it is there (`convert_exact`): a copy adds its
target only, and a rename, which touches both paths, drops its source as well.

A clean destination holds regular files, executable or not.  Through a link in the working
tree a write would reach the file behind it, and the index would keep the link.
-/
import TokenBlame.Proofs.Destination.Revising
import TokenBlame.Proofs.Transcode.Recalled

set_option autoImplicit false

namespace TokenBlame.Transcode

open Git

section Delta

variable {source : RevisionSource} {settings : Settings} {service : Option CommentService}
  {destination next : Destination} {commit : SourceCommit} {wanted : List FileChange}

/-! ## The changes of a commit -/

/-! ## Commits on a clean destination -/

/-- The files at HEAD; none where there is no commit. -/
def headFiles (parent : Option Commit) : Snapshot :=
  (parent.map (·.tree)).getD ∅

/-- A clean destination with nothing staged: its index is that of the commit at HEAD. -/
structure AtHead (destination : Destination) (parent : Option Commit) : Prop where
  clean : destination.Clean
  tip : destination.repository.tipCommit = .ok parent
  level : destination.index = headFiles parent

/-- What becomes of a clean destination when a commit is made of a source commit: one with
the changes of that, and nothing staged. -/
structure Makes (settings : Settings) (destination : Destination) (commit : SourceCommit)
    (wanted : List FileChange) (parent : Option Commit) (made : Commit) (next : Destination) :
    Prop where
  tip : destination.repository.tipCommit = .ok parent
  replicates : Replicates settings commit parent made
  tree : made.tree = destination.index.changeAll (FileChange.removalsFirst wanted)
  home : next.home = destination.home
  core : next.repository.core = (destination.repository.advance made).core
  clean : next.Clean
  index : next.index = made.tree
  saved : next.saved = made.tree

/-- A commit that is made has the index with the changes of its source commit. -/
theorem makes_of_convert (clean : destination.Clean)
    (valid : ∀ path ∈ Plan.paths commit, (TreePath.ofString path).isValid = true)
    (converted : convert source settings service destination commit = (.ok (), next)) :
    ∃ wanted parent made, changes source settings service commit = .ok wanted ∧
      destination.index.TakesAll (FileChange.removalsFirst wanted) ∧
      replica? source settings service destination commit = some made ∧
      Makes settings destination commit wanted parent made next := by
  obtain ⟨wanted, staged, found, put, sealed⟩ := of_convert_ok converted
  obtain ⟨takes, clean', alike, index, saved⟩ := clean.of_stage_ok
    (fun change member => valid _ (path_mem_of_changes found change member)) put
  rcases staged.commitIndex_cases (Trailer.message commit.description commit.id)
    settings.identity commit.time commit.offsetMinutes with
    ⟨signature, parent, signed, tip, whole, committed⟩ | ⟨-, fault, failed⟩
  · cases sealed.symm.trans (sealStaged_of_ok committed)
    have kept := Destination.kept_withRepository staged
      (staged.repository.advance (staged.nextCommit parent
        (Trailer.message commit.description commit.id) signature))
    refine ⟨wanted, parent, _, found, takes, replica?_of_staged found put signed tip whole, ?_,
      replicates_nextCommit staged whole signed, index, alike.home,
      Repository.core_advance alike.core _, kept.clean clean', rfl, saved.trans index.symm⟩
    rw [← Repository.tipCommit_of_core alike.core, tip]
  · cases sealed.symm.trans (sealStaged_of_error failed)

/-- HEAD is the commit that was made, unless another one has its name. -/
theorem Makes.atHead {parent : Option Commit} {made : Commit}
    (makes : Makes settings destination commit wanted parent made next)
    (grown : Grown destination.repository.commits)
    (admits : destination.repository.Admits made) :
    AtHead next (some made) ∧ Grown next.repository.commits := by
  have grown' := grown_advance grown makes.tip makes.replicates.parents
  refine ⟨⟨makes.clean, ?_, makes.index⟩, ?_⟩
  · rw [Repository.tipCommit_of_core makes.core, tipCommit_advance admits]
  · rw [(Repository.core_eq_iff.1 makes.core).1]
    exact grown'

/-! ## The delta -/

/-- **The delta of a commit.**  A commit that is sealed on a clean destination has its paths
as the source commit has them, in the form in which they are replayed and with the
permissions that they had; everything else is as in the commit at HEAD, and so is the source
of a copy unless it was touched itself.  Working tree and index are those of the new commit
then. -/
theorem convert_exact {parent : Option Commit} (atHead : AtHead destination parent)
    (valid : ∀ path ∈ Plan.paths commit, (TreePath.ofString path).isValid = true)
    (converted : convert source settings service destination commit = (.ok (), next)) :
    ∃ made, replica? source settings service destination commit = some made ∧
      Replicates settings commit parent made ∧
      next.repository.core = (destination.repository.advance made).core ∧
      (∀ path ∈ Plan.paths commit,
        (source.read path commit.id = .ok none ∧
          made.tree.get? (TreePath.ofString path) = none) ∨
        ∃ content, source.read path commit.id = .ok (some content) ∧
          made.tree.get? (TreePath.ofString path) =
            some (.file (transform settings service path content)
              (Disk.isExecutable ((headFiles parent).view (TreePath.ofString path))))) ∧
      (∀ place, (∀ path ∈ Plan.paths commit, TreePath.ofString path ≠ place) →
        made.tree.get? place = (headFiles parent).get? place) ∧
      (∀ action ∈ Plan.actions commit, ∀ origin, action.copiedFrom = some origin →
        origin ∉ commit.touched → made.tree.get? (TreePath.ofString origin) =
          (headFiles parent).get? (TreePath.ofString origin)) ∧
      made.tree.Plain ∧ next.Clean ∧ next.index = made.tree ∧ next.saved = made.tree ∧
      (Grown destination.repository.commits → destination.repository.Admits made →
        AtHead next (some made)) := by
  obtain ⟨wanted, parent', made, found, -, replica, makes⟩ :=
    makes_of_convert atHead.clean valid converted
  cases atHead.tip.symm.trans makes.tip
  have tree : made.tree = (headFiles parent).changeAll (FileChange.removalsFirst wanted) := by
    rw [makes.tree, atHead.level]
  have paths := map_path_of_changes found
  have distinct : ((FileChange.removalsFirst wanted).map FileChange.path).Nodup :=
    Destination.nodup_removalsFirst (paths ▸ nodup_paths commit)
  have others : ∀ place, (∀ path ∈ Plan.paths commit, TreePath.ofString path ≠ place) →
      made.tree.get? place = (headFiles parent).get? place := by
    intro place away
    rw [tree]
    refine Snapshot.get?_changeAll_other fun change member => ?_
    exact away _ (path_mem_of_changes found change (Destination.mem_removalsFirst.1 member))
  refine ⟨made, replica, makes.replicates, makes.core, ?_, others, ?_, ?_, makes.clean,
    makes.index, makes.saved, fun grown admits => (makes.atHead grown admits).1⟩
  · intro path member
    rw [tree]
    rcases change_mem found member with ⟨gone, inside⟩ | ⟨content, there, inside⟩
    · exact Or.inl ⟨gone, Snapshot.get?_changeAll_remove distinct
        (Destination.mem_removalsFirst.2 inside)⟩
    · exact Or.inr ⟨content, there, Snapshot.get?_changeAll_write distinct
        (Destination.mem_removalsFirst.2 inside)⟩
  · intro action member origin _ untouched
    refine others _ fun path inside same => ?_
    rw [TreePath.ofString_injective same] at inside
    exact untouched (mem_paths.1 inside).1
  · rw [← makes.index]
    exact makes.clean.plain

end Delta

namespace CopiedFile

/-- The id of the second commit. -/
def copyId : String := String.ofList (List.replicate 40 '5')

/-- A commit that copies a file and leaves the file itself alone. -/
def copy : SourceCommit :=
  { OneFile.commit with
    id := copyId, parents := [OneFile.onlyId], touched := ["b"],
    copies := (∅ : Table String String).insert "b" "a" }

/-- A source of a file and its copy. -/
def source : RevisionSource where
  list _ := .ok [OneFile.onlyId, copyId]
  metadata id := .ok (if id = OneFile.onlyId then OneFile.commit else copy)
  read path _ := .ok (if path = "a" ∨ path = "b" then some [0x78] else none)

/-- The destination with the file. -/
def destination : Destination :=
  (convert source {} none OneFile.state.destination OneFile.commit).2

theorem atHead : ∃ parent, AtHead destination (some parent) := by
  have done : (convert source {} none OneFile.state.destination OneFile.commit).1 = .ok () := by
    decide +kernel
  obtain ⟨wanted, parent, made, -, -, -, makes⟩ := @makes_of_convert source {} none
    OneFile.state.destination destination OneFile.commit
    (Destination.clean_create OneFile.workspace rfl) (by decide) (Prod.ext done rfl)
  exact ⟨made, (makes.atHead trivial fun other none => absurd none List.not_mem_nil).1⟩

end CopiedFile

/-- A copy adds its target and leaves its source as it is. -/
theorem copied_file_sealed : ∃ parent made next,
    AtHead CopiedFile.destination (some parent) ∧
    convert CopiedFile.source {} none CopiedFile.destination CopiedFile.copy = (.ok (), next) ∧
    replica? CopiedFile.source {} none CopiedFile.destination CopiedFile.copy = some made ∧
    (∃ executable, made.tree.get? (TreePath.ofString "b") =
      some (.file (transform {} none "b" [0x78]) executable)) ∧
    made.tree.get? (TreePath.ofString "a") = parent.tree.get? (TreePath.ofString "a") := by
  obtain ⟨parent, atHead⟩ := CopiedFile.atHead
  have done : (convert CopiedFile.source {} none CopiedFile.destination CopiedFile.copy).1 =
      .ok () := by decide +kernel
  obtain ⟨next, converted⟩ : ∃ next, convert CopiedFile.source {} none CopiedFile.destination
      CopiedFile.copy = (.ok (), next) := by
    generalize convert CopiedFile.source {} none CopiedFile.destination CopiedFile.copy = pair at done
    exact ⟨pair.2, Prod.ext done rfl⟩
  obtain ⟨made, replica, -, -, planned, -, origins, -⟩ := convert_exact atHead (by decide) converted
  refine ⟨parent, made, next, atHead, converted, replica, ?_,
    origins ⟨"b", some "a"⟩ (by decide) "a" rfl (by decide)⟩
  rcases planned "b" (by decide) with ⟨gone, -⟩ | ⟨content, there, found⟩
  · cases gone
  · cases there
    exact ⟨_, found⟩

end TokenBlame.Transcode
