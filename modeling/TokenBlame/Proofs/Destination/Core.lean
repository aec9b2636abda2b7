/-
# TokenBlame.Proofs.Destination.Core -- what becomes of commits and branches

What a repository holds besides its commits and branches is not read by those who ask for
its HEAD or its history: repositories of one core answer alike (`tipCommit_of_core`,
`history_of_core`).

Changes to files, made at paths that lead past the repository's own directory, leave the
core as it is (`core_stage`), and so does going back to HEAD (`repository_resetToHead`).
Made at any other path they may change the branches, but not the commits (`commits_stage`).
-/
import TokenBlame.Proofs.Destination.Replica

set_option autoImplicit false

namespace TokenBlame

/-! ## Repositories of one core -/

namespace Git

section Core

variable {a b : Repository}

theorem Repository.find?_of_core (same : b.core = a.core) (id : ObjectId) :
    b.find? id = a.find? id :=
  congrFun (find?_congr (Repository.core_eq_iff.1 same).1) id

theorem Repository.headId?_of_core (same : b.core = a.core) : b.headId? = a.headId? := by
  obtain ⟨-, branches, head, -⟩ := Repository.core_eq_iff.1 same
  unfold Repository.headId?
  rw [branches, head]

theorem Repository.tipCommit_of_core (same : b.core = a.core) : b.tipCommit = a.tipCommit := by
  obtain ⟨-, -, head, damaged⟩ := Repository.core_eq_iff.1 same
  unfold Repository.tipCommit Repository.tip
  simp only [head, damaged, Repository.headId?_of_core same, Repository.find?_of_core same]

/-- Hiding reads commits only. -/
theorem Walk.hide_of_core (same : b.core = a.core) (count : Nat) (walk : Walk)
    (ids : List ObjectId) : Walk.hide b walk count ids = Walk.hide a walk count ids := by
  induction count generalizing walk ids with
  | zero => rfl
  | succ count ih =>
      cases ids with
      | nil => rfl
      | cons id ids =>
          unfold Walk.hide
          simp only [ih, Repository.find?_of_core same]

theorem Walk.hideParents_of_core (same : b.core = a.core) (walk : Walk) (commit : Commit) :
    Walk.hideParents b walk commit = Walk.hideParents a walk commit := by
  unfold Walk.hideParents
  simp only [(Repository.core_eq_iff.1 same).1, Walk.hide_of_core same]

theorem Walk.follow_of_core (same : b.core = a.core) (walk : Walk) (commit : Commit) :
    Walk.follow b walk commit = Walk.follow a walk commit := by
  have hidden : Walk.followHidden b = Walk.followHidden a := by
    funext walk parent
    unfold Walk.followHidden
    simp only [Walk.hideParents_of_core same]
  have found : b.find? = a.find? := funext (Repository.find?_of_core same)
  unfold Walk.follow
  rw [hidden, found]

theorem Walk.run_of_core (same : b.core = a.core) (count : Nat) (walk : Walk) :
    Walk.run b count walk = Walk.run a count walk := by
  induction count generalizing walk with
  | zero => rfl
  | succ count ih =>
      unfold Walk.run
      simp only [ih, Walk.follow_of_core same, Walk.hideParents_of_core same]

theorem Repository.between_of_core (same : b.core = a.core) (tip : ObjectId)
    (hidden : List ObjectId) : b.between tip hidden = a.between tip hidden := by
  have found : b.find? = a.find? := funext (Repository.find?_of_core same)
  unfold Repository.between
  simp only [found, (Repository.core_eq_iff.1 same).1, Walk.hideParents_of_core same,
    Walk.run_of_core same]

/-- **Repositories of one core** have one history. -/
theorem Repository.history_of_core (same : b.core = a.core) : b.history = a.history := by
  unfold Repository.history
  simp only [Repository.headId?_of_core same, Repository.between_of_core same]

/-- The same commit on top of repositories of one core. -/
theorem Repository.core_advance (same : b.core = a.core) (commit : Commit) :
    (b.advance commit).core = (a.advance commit).core := by
  obtain ⟨commits, branches, head, damaged⟩ := Repository.core_eq_iff.1 same
  refine Repository.core_eq_iff.2 ⟨?_, ?_, ?_, ?_⟩
  · rw [commits_advance, commits_advance, Repository.find?_of_core same, commits]
  · rw [advance_eq, advance_eq, branches, head]
  · rw [advance_eq, advance_eq]
    exact head
  · rw [advance_eq, advance_eq, damaged, head]

end Core

end Git

namespace Destination

open Git

variable {destination : Destination}

/-! ## Staging -/

theorem core_update {next : Destination} (update : Update destination next) :
    next.repository.core = destination.repository.core := by
  cases update <;> rfl

/-- A change at a path that leads past the repository's own directory. -/
theorem core_apply {change : FileChange} (outside : Outside change.path) :
    (destination.apply change).2.repository.core = destination.repository.core := by
  refine apply_keeps (fun next => next.repository.core = destination.repository.core)
    (fun update same => (core_update update).trans same) (fun next same => ?_) rfl
  rw [heed_outside outside]
  exact same

/-- **Staging** past the repository's own directory leaves commits and branches alone. -/
theorem core_stage {changes : List FileChange}
    (outside : ∀ change ∈ changes, Outside change.path) :
    (destination.stage changes).2.repository.core = destination.repository.core :=
  stage_keeps (fun next => next.repository.core = destination.repository.core) rfl
    (fun change member _ same => (core_apply (outside change member)).trans same) fun _ same => same

/-- A change leaves the commits alone, wherever its path leads. -/
theorem commits_apply (destination : Destination) (change : FileChange) :
    (destination.apply change).2.repository.commits = destination.repository.commits := by
  refine apply_keeps (fun next =>
      next.repository.commits = destination.repository.commits)
    (fun update same => ?_) (fun next same => ?_) rfl
  · exact (Repository.core_eq_iff.1 (core_update update)).1.trans same
  · unfold heed
    split <;> exact same

/-- **Staging** leaves the commits alone, wherever the paths lead. -/
theorem commits_stage (destination : Destination) (changes : List FileChange) :
    (destination.stage changes).2.repository.commits = destination.repository.commits :=
  stage_keeps (fun next => next.repository.commits = destination.repository.commits) rfl
    (fun change _ middle same => (commits_apply middle change).trans same) fun _ same => same

/-! ## Going back and committing -/

theorem repository_resetToHead (destination : Destination) :
    destination.resetToHead.2.repository = destination.repository := by
  unfold resetToHead
  split
  · rfl
  · rfl
  · split
    · rfl
    · unfold checkOut
      split <;> rfl

@[simp] theorem parents_nextCommit (destination : Destination) (parent : Option Commit)
    (message : String) (signature : Signature) :
    (destination.nextCommit parent message signature).parents =
      (parent.map (·.id)).toList := by
  cases parent <;> rfl

@[simp] theorem rawMessage_nextCommit (destination : Destination) (parent : Option Commit)
    (message : String) (signature : Signature) :
    (destination.nextCommit parent message signature).rawMessage = Utf8.encode message := rfl

@[simp] theorem author_nextCommit (destination : Destination) (parent : Option Commit)
    (message : String) (signature : Signature) :
    (destination.nextCommit parent message signature).author = signature := rfl

@[simp] theorem committer_nextCommit (destination : Destination) (parent : Option Commit)
    (message : String) (signature : Signature) :
    (destination.nextCommit parent message signature).committer = signature := rfl

end Destination

end TokenBlame
