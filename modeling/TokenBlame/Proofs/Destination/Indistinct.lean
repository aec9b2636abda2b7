/-
# TokenBlame.Proofs.Destination.Indistinct -- what is stored apart from the commits

Contents and trees that no commit has stay in a repository, but nothing that is done to a
destination reads them.  Two destinations that differ in nothing else are indistinct
(`Indistinct`): whatever is staged, committed or taken back has the same outcome in both and
leaves indistinct destinations (`Indistinct.act`), and so has any list of such actions
(`Indistinct.acts`).
-/
import TokenBlame.Proofs.Destination.Core

set_option autoImplicit false

namespace TokenBlame.Destination

open Git

/-- Destinations that differ in what is stored apart from their commits, and in nothing else. -/
def Indistinct (a b : Destination) : Prop :=
  ∃ repository : Repository, repository.core = a.repository.core ∧ b = { a with repository }

/-- The same outcome, and indistinct destinations. -/
def Matches {α : Type} (one two : α × Destination) : Prop :=
  two.1 = one.1 ∧ Indistinct one.2 two.2

section Indistinct

variable {a b : Destination}

/-- Alike destinations with the same indexes on the same disk. -/
theorem indistinct_iff : Indistinct a b ↔
    Alike a b ∧ b.index = a.index ∧ b.saved = a.saved ∧ b.disk = a.disk := by
  constructor
  · rintro ⟨repository, core, rfl⟩
    exact ⟨⟨rfl, rfl, core⟩, rfl, rfl, rfl⟩
  · rintro ⟨⟨home, bare, core⟩, index, saved, disk⟩
    refine ⟨b.repository, core, ?_⟩
    obtain ⟨⟨repository, bare', saved'⟩, index', disk', home'⟩ := b
    dsimp only at home bare index saved disk
    subst home bare index saved disk
    rfl

/-! ## One change -/

variable (indistinct : Indistinct a b)

include indistinct

theorem Indistinct.addToIndex (path : TreePath) :
    Matches (a.addToIndex path) (b.addToIndex path) := by
  obtain ⟨repository, core, rfl⟩ := indistinct
  have same : entryAt? { a with repository } path = a.entryAt? path := rfl
  unfold Destination.addToIndex
  rw [same]
  cases a.entryAt? path with
  | none => exact ⟨rfl, repository, core, rfl⟩
  | some entry =>
      dsimp only
      by_cases valid : path.isValid = true
      · rw [if_pos valid, if_pos valid]
        exact ⟨rfl, repository.storeContent entry, core, rfl⟩
      · rw [if_neg valid, if_neg valid]
        exact ⟨rfl, repository.storeContent entry, core, rfl⟩

theorem Indistinct.write (path : String) (content : Bytes) :
    Matches (a.write path content) (b.write path content) := by
  obtain ⟨repository, core, rfl⟩ := indistinct
  have same : route { a with repository } path = a.route path := rfl
  unfold Destination.write
  dsimp only
  rw [same]
  cases Disk.makeDirectories a.disk (a.route path).parent with
  | mk result disk =>
      cases result with
      | error error => exact ⟨rfl, repository, core, rfl⟩
      | ok _ =>
          dsimp only
          cases disk.write (a.route path) content with
          | error error => exact ⟨rfl, repository, core, rfl⟩
          | ok disk =>
              have filled : Indistinct { a with disk } { a with repository, disk } :=
                ⟨repository, core, rfl⟩
              exact filled.addToIndex _

theorem Indistinct.remove (path : String) : Matches (a.remove path) (b.remove path) := by
  obtain ⟨repository, core, rfl⟩ := indistinct
  have same : route { a with repository } path = a.route path := rfl
  unfold Destination.remove
  dsimp only
  rw [same]
  cases a.disk.remove (a.route path) with
  | error error =>
      dsimp only
      split
      · exact ⟨rfl, repository, core, rfl⟩
      · exact ⟨rfl, repository, core, rfl⟩
  | ok disk => exact ⟨rfl, repository, core, rfl⟩

theorem Indistinct.heed (path : String) : Indistinct (a.heed path) (b.heed path) := by
  obtain ⟨repository, core, rfl⟩ := indistinct
  unfold Destination.heed
  split
  · refine ⟨_, ?_, rfl⟩
    exact Repository.core_eq_iff.2 ⟨(Repository.core_eq_iff.1 core).1, rfl, rfl, rfl⟩
  · exact ⟨repository, core, rfl⟩

theorem Indistinct.apply (change : FileChange) : Matches (a.apply change) (b.apply change) := by
  rw [apply_eq, apply_eq]
  cases change with
  | write path content =>
      obtain ⟨result, next⟩ := indistinct.write path content
      exact ⟨result, next.heed _⟩
  | remove path =>
      obtain ⟨result, next⟩ := indistinct.remove path
      exact ⟨result, next.heed _⟩

theorem Indistinct.applyAll (changes : List FileChange) :
    Matches (a.applyAll changes) (b.applyAll changes) := by
  induction changes generalizing a b with
  | nil => exact ⟨rfl, indistinct⟩
  | cons first rest ih =>
      obtain ⟨result, next⟩ := indistinct.apply first
      rw [Destination.applyAll, Destination.applyAll]
      cases one : a.apply first with
      | mk own middle =>
          cases two : b.apply first with
          | mk other middle' =>
              rw [one, two] at result next
              obtain rfl : other = own := result
              cases other with
              | error error => exact ⟨rfl, next⟩
              | ok _ => exact ih next

/-! ## Staging, committing and going back -/

theorem Indistinct.saveIndex : Indistinct a.saveIndex b.saveIndex := by
  obtain ⟨repository, core, rfl⟩ := indistinct
  exact ⟨repository, core, rfl⟩

theorem Indistinct.stage (changes : List FileChange) :
    Matches (a.stage changes) (b.stage changes) := by
  have bare : b.bare = a.bare := by
    obtain ⟨repository, -, rfl⟩ := indistinct
    rfl
  unfold Destination.stage
  cases FileChange.checkAll changes with
  | error error => exact ⟨rfl, indistinct⟩
  | ok _ =>
      dsimp only
      rw [bare]
      split
      · exact ⟨rfl, indistinct⟩
      · obtain ⟨result, next⟩ := indistinct.applyAll (FileChange.removalsFirst changes)
        cases one : a.applyAll (FileChange.removalsFirst changes) with
        | mk own middle =>
            cases two : b.applyAll (FileChange.removalsFirst changes) with
            | mk other middle' =>
                rw [one, two] at result next
                obtain rfl : other = own := result
                cases other with
                | error error => exact ⟨rfl, next⟩
                | ok _ => exact ⟨rfl, next.saveIndex⟩

theorem Indistinct.withRepository {one other : Repository} (core : other.core = one.core) :
    Indistinct (a.withRepository one) (b.withRepository other) := by
  obtain ⟨repository, -, rfl⟩ := indistinct
  refine ⟨other, core, ?_⟩
  have branches : other.branches = one.branches := (Repository.core_eq_iff.1 core).2.1
  unfold Destination.withRepository Directory.recordBranches
  rw [branches]

theorem Indistinct.commitIndex (message : String) (identity : Identity) (time offset : Int) :
    Matches (a.commitIndex message identity time offset)
      (b.commitIndex message identity time offset) := by
  have stored : Indistinct { a with repository := a.repository.storeTree a.index }
      { b with repository := b.repository.storeTree b.index } := by
    obtain ⟨repository, core, rfl⟩ := indistinct
    exact ⟨repository.storeTree a.index, core, rfl⟩
  have core : b.repository.core = a.repository.core := by
    obtain ⟨repository, core, rfl⟩ := indistinct
    exact core
  have index : b.index = a.index := by
    obtain ⟨repository, -, rfl⟩ := indistinct
    rfl
  unfold Destination.commitIndex
  dsimp only
  rw [Repository.tipCommit_of_core core]
  cases Signature.clean identity.name identity.email time offset with
  | error fault => exact ⟨rfl, stored⟩
  | ok signature =>
      cases a.repository.tipCommit with
      | error fault => exact ⟨rfl, stored⟩
      | ok parent =>
          dsimp only
          split
          · exact ⟨rfl, stored⟩
          · have commit : b.nextCommit parent message signature =
                a.nextCommit parent message signature := by
              unfold nextCommit
              rw [index]
            rw [commit]
            exact ⟨rfl, indistinct.withRepository (Repository.core_advance core _)⟩

theorem Indistinct.resetToHead : Matches a.resetToHead b.resetToHead := by
  obtain ⟨repository, core, rfl⟩ := indistinct
  unfold Destination.resetToHead
  dsimp only
  rw [Repository.tipCommit_of_core core]
  cases a.repository.tipCommit with
  | error fault => exact ⟨rfl, repository, core, rfl⟩
  | ok tip =>
      cases tip with
      | none => exact ⟨rfl, repository, core, rfl⟩
      | some commit =>
          dsimp only
          split
          · exact ⟨rfl, repository, core, rfl⟩
          · unfold checkOut
            have top : Destination.top { a with repository } = a.top := rfl
            rw [top]
            dsimp only
            split
            · exact ⟨rfl, repository, core, rfl⟩
            · exact ⟨rfl, repository, core, rfl⟩

end Indistinct

/-! ## Actions -/

/-- What is done to a destination. -/
inductive Action where
  | stage (changes : List FileChange)
  | commit (message : String) (identity : Identity) (time offset : Int)
  | reset

/-- What comes of an action. -/
inductive Outcome where
  | staged (result : Except Error Unit)
  | committed (result : Except GitFault ObjectId)
  | restored (result : Except Error Unit)

/-- Do something to a destination. -/
def act (destination : Destination) : Action → Outcome × Destination
  | .stage changes =>
      let (result, next) := destination.stage changes
      (.staged result, next)
  | .commit message identity time offset =>
      let (result, next) := destination.commitIndex message identity time offset
      (.committed result, next)
  | .reset =>
      let (result, next) := destination.resetToHead
      (.restored result, next)

/-- Do one thing after the other, whatever comes of it. -/
def acts (destination : Destination) : List Action → List Outcome × Destination
  | [] => ([], destination)
  | action :: rest =>
      let first := destination.act action
      let later := acts first.2 rest
      (first.1 :: later.1, later.2)

variable {a b : Destination}

theorem Indistinct.act (indistinct : Indistinct a b) (action : Action) :
    Matches (a.act action) (b.act action) := by
  cases action with
  | stage changes =>
      obtain ⟨result, next⟩ := indistinct.stage changes
      exact ⟨congrArg Outcome.staged result, next⟩
  | commit message identity time offset =>
      obtain ⟨result, next⟩ := indistinct.commitIndex message identity time offset
      exact ⟨congrArg Outcome.committed result, next⟩
  | reset =>
      obtain ⟨result, next⟩ := indistinct.resetToHead
      exact ⟨congrArg Outcome.restored result, next⟩

/-- **Actions** have the same outcomes in indistinct destinations, and leave such. -/
theorem Indistinct.acts (indistinct : Indistinct a b) (actions : List Action) :
    Matches (a.acts actions) (b.acts actions) := by
  induction actions generalizing a b with
  | nil => exact ⟨rfl, indistinct⟩
  | cons action rest ih =>
      obtain ⟨outcome, middle⟩ := indistinct.act action
      obtain ⟨outcomes, next⟩ := ih middle
      refine ⟨?_, next⟩
      show (b.act action).1 :: ((b.act action).2.acts rest).1 = _
      rw [outcome, outcomes]
      rfl

end TokenBlame.Destination
