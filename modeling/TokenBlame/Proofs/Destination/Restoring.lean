/-
# TokenBlame.Proofs.Destination.Restoring -- going back to the last commit

Where the index has all that is in the working tree, going back to a commit brings the working
tree and both indexes to it and spares the rest of the disk (`resetToHead_spares`), if the
commit has the links that are there.  Without a commit only the indexes are emptied, and the
working tree stays as it is (`resetToHead_unborn`).  So where the index is that of the last
commit, going back changes nothing but the working tree, and that has all files of the index
afterwards (`Backs.reset`).
-/
import TokenBlame.Proofs.Checkout.Run
import TokenBlame.Proofs.Destination.Replica

set_option autoImplicit false

namespace TokenBlame

open Git

namespace Destination

variable {top : TreePath} {destination : Destination} {tree : Snapshot} {disk : Disk}

/-- Where there is a commit at HEAD, working tree and indexes are brought to it, and nothing else
on the disk changes until the index is saved. -/
theorem resetToHead_spares (home : destination.home = top ++ [TreePath.gitDirectory])
    (working : destination.bare = false) (keeps : destination.disk.Keeps top tree)
    (own : destination.index.Standing top)
    (inner : ∀ place entry, tree.get? place = some entry →
      destination.index.get? place = some entry)
    {commit : Commit} (head : destination.repository.tipCommit = .ok (some commit))
    (goal : commit.tree.Standing top)
    (links : ∀ place target, tree.get? place = some (.link target) →
      commit.tree.get? place = some (.link target)) :
    ∃ next, destination.resetToHead =
        (.ok (), { destination with
          disk := Directory.recordIndex next destination.home
          index := commit.tree
          saved := commit.tree }) ∧
      next.Keeps top commit.tree ∧ Disk.Spares destination.disk next top := by
  obtain ⟨next, index, ran, keeps', spares⟩ := Checkout.run_of_keeps keeps own inner goal links
  refine ⟨next, ?_, keeps', spares⟩
  have place : destination.top = top := top_of_home home
  have notBare : ¬ (destination.bare = true) := by simp [working]
  rw [resetToHead, head]
  dsimp only
  rw [if_neg notBare, checkOut, place, ran]
  rfl

/-- Where there are only files, no link is in the way. -/
theorem resetToHead_commit (home : destination.home = top ++ [TreePath.gitDirectory])
    (working : destination.bare = false) (keeps : destination.disk.Keeps top tree)
    (own : destination.index.Fitting top)
    (inner : ∀ place entry, tree.get? place = some entry →
      destination.index.get? place = some entry)
    {commit : Commit} (head : destination.repository.tipCommit = .ok (some commit))
    (goal : commit.tree.Fitting top) :
    ∃ next, destination.resetToHead =
        (.ok (), { destination with disk := next, index := commit.tree, saved := commit.tree }) ∧
      next.Keeps top commit.tree := by
  obtain ⟨next, reset, keeps', -⟩ := resetToHead_spares home working keeps own.standing inner head
    goal.standing fun place target found => by cases own.plain.files _ _ (inner _ _ found)
  exact ⟨_, reset, keeps_recordIndex home keeps'⟩

/-- Going back keeps the order of names, whatever comes of it. -/
theorem ordered_resetToHead {place : TreePath} (ordered : Disk.Ordered destination.disk place) :
    Disk.Ordered destination.resetToHead.2.disk place := by
  unfold resetToHead
  split
  · exact ordered
  · exact ordered.fill _ _ _
  · rename_i commit _
    split
    · exact ordered
    · have ran := @Checkout.ordered_run destination.top ⟨destination.disk, destination.index⟩ place
        ordered commit.tree
      unfold checkOut
      split
      · rename_i failed
        rw [failed] at ran
        exact ran
      · rename_i done
        rw [done] at ran
        exact ran.fill _ _ _

/-- Without a commit the indexes are emptied, and nothing is done to the working tree. -/
theorem resetToHead_unborn (home : destination.home = top ++ [TreePath.gitDirectory])
    (keeps : destination.disk.Keeps top tree)
    (head : destination.repository.tipCommit = .ok none) :
    ∃ next, destination.resetToHead =
        (.ok (), { destination with disk := next, index := ∅, saved := ∅ }) ∧
      next.Keeps top tree := by
  refine ⟨Directory.recordIndex destination.disk destination.home, ?_,
    keeps_recordIndex home keeps⟩
  rw [resetToHead, head]
  rfl

theorem Backs.fitting (backs : Backs top destination tree) : destination.index.Fitting top := by
  refine ⟨backs.plain, fun place entry found => ?_⟩
  obtain ⟨path, -, same, fits, -⟩ := backs.taken place entry found
  exact ⟨path, same, fits⟩

/-- **Going back to HEAD** changes nothing but the working tree, which has all files of the
index then. -/
theorem Backs.reset (backs : Backs top destination tree) (keeps : disk.Keeps top tree)
    (saved : destination.saved = destination.index) {tip : Option Commit}
    (head : destination.repository.tipCommit = .ok tip)
    (level : destination.index = (tip.map (·.tree)).getD ∅) :
    ∃ next, ({ destination with disk } : Destination).resetToHead =
        (.ok (), { destination with disk := next }) ∧ next.Keeps top destination.index := by
  cases tip with
  | none =>
      have none : destination.index = ∅ := level
      have empty : tree = destination.index := by
        apply Table.ext_get?
        intro place
        cases found : tree.get? place with
        | some entry => exact (backs.inner place entry found).symm
        | none =>
            rw [none]
            rfl
      obtain ⟨next, reset, keeps'⟩ :=
        @resetToHead_unborn top { destination with disk } tree backs.home keeps head
      refine ⟨next, ?_, empty ▸ keeps'⟩
      rw [reset, ← none, ← saved]
  | some commit =>
      have own : commit.tree = destination.index := level.symm
      obtain ⟨next, reset, keeps'⟩ := @resetToHead_commit top { destination with disk } tree
        backs.home backs.working keeps backs.fitting backs.inner commit head (own ▸ backs.fitting)
      refine ⟨next, ?_, own ▸ keeps'⟩
      rw [reset, own, ← saved]

end Destination

end TokenBlame
