/-
# TokenBlame.Proofs.Git.Extension -- histories in a store that has grown

A store is extended when new commits are put in front of those that it has (`Extends`).  A
walk from a commit that was there before takes the same way as before (`run_extends`), so
the history of that commit stays what it was (`historyOf_extends`): the name of a commit
determines the history behind it, for as long as nothing is taken away.
-/
import TokenBlame.Proofs.Git.Growth

set_option autoImplicit false

namespace TokenBlame.Git

/-- A grown store with the commits of another one behind its own. -/
structure Repository.Extends (before after : Repository) : Prop where
  grown : Grown after.commits
  behind : before.commits <:+ after.commits

section Extends

variable {before after last : Repository} {commit : Commit} {id : ObjectId}

theorem Repository.Extends.of_eq (grown : Grown before.commits)
    (same : after.commits = before.commits) : before.Extends after :=
  ⟨same ▸ grown, same ▸ List.suffix_refl _⟩

theorem Repository.Extends.trans (first : before.Extends after) (second : after.Extends last) :
    before.Extends last :=
  ⟨second.grown, first.behind.trans second.behind⟩

theorem Repository.Extends.find? (extended : before.Extends after)
    (found : before.find? id = some commit) : after.find? id = some commit := by
  rw [← id_of_find? found]
  exact find?_of_mem extended.grown.distinct
    (extended.behind.subset (List.mem_of_find?_eq_some found))

/-- A commit whose parents are stored is stored in front of them. -/
theorem Repository.Extends.store (grown : Grown before.commits)
    (parents : ∀ id ∈ commit.parents, id ∈ before.commits.map (·.id)) :
    before.Extends (before.store commit) := by
  have commits := commits_store before commit
  split at commits
  · exact .of_eq grown commits
  · rename_i absent
    constructor <;> rw [commits]
    · exact ⟨parents, fun member => absent (isSome_find?_iff.2 member), grown⟩
    · exact List.suffix_cons _ _

theorem Repository.Extends.advance (grown : Grown before.commits) {parent : Option Commit}
    (tip : before.tipCommit = .ok parent) (parents : commit.parents = (parent.map (·.id)).toList) :
    before.Extends (before.advance commit) := by
  refine ⟨grown_advance grown tip parents, ?_⟩
  rw [commits_advance]
  split
  · exact List.suffix_refl _
  · exact List.suffix_cons _ _

end Extends

/-! ## Walks -/

section Walks

variable {before after : Repository} {commits rest : List Commit} {first : Commit} {walk : Walk}

/-- A walk takes the same way in an extended store. -/
theorem Walk.run_extends (extended : before.Extends after)
    (store : before.commits = commits ++ first :: rest) (grown : Grown before.commits)
    (seeks : walk.Seeks (first :: rest) first) (count : Nat) :
    Walk.run after count walk = Walk.run before count walk := by
  induction count generalizing walk with
  | zero => rfl
  | succ count ih =>
      cases line : walk.waiting with
      | nil => rw [run_idle line, run_idle line]
      | cons commit waiting =>
          have member : commit ∈ first :: rest :=
            seeks.inside commit (by rw [known, line]; exact List.mem_cons_self)
          have parents : commit.parents.filterMap after.find? =
              commit.parents.filterMap before.find? := by
            apply List.filterMap_congr
            intro id parent
            have closed := store ▸ grown
            obtain ⟨other, inside, rfl⟩ := List.mem_map.1 (closed.behind.parent member parent)
            have among : other ∈ before.commits := by
              rw [store]
              exact List.mem_append_right _ (List.mem_cons_of_mem _ inside)
            have stored : before.find? other.id = some other := find?_of_mem grown.distinct among
            rw [stored, extended.find? stored]
          rw [run_visit seeks line, run_visit seeks line, Walk.visit, parents]
          exact ih (seeks.visit store grown line)

/-- What lies behind a stored commit is the same in an extended store. -/
theorem between_extends (extended : before.Extends after) (grown : Grown before.commits)
    (found : before.find? first.id = some first) :
    after.between first.id [] = before.between first.id [] := by
  obtain ⟨commits, rest, store⟩ := List.append_of_mem (List.mem_of_find?_eq_some found)
  obtain ⟨front, whole⟩ := extended.behind
  have longer : after.commits = (front ++ commits) ++ first :: rest := by
    rw [← whole, store, List.append_assoc]
  obtain ⟨seeks, -⟩ := (Walk.seeks_start List.mem_cons_self).run store grown
    (1 + (before.commits.flatMap (·.parents)).length)
  -- both walks have steps enough
  have same : Walk.run after (1 + (after.commits.flatMap (·.parents)).length) (Walk.start first) =
      Walk.run before (1 + (before.commits.flatMap (·.parents)).length) (Walk.start first) := by
    rw [Walk.run_extends extended store grown (Walk.seeks_start List.mem_cons_self)]
    exact Walk.run_enough store grown (Nat.add_le_add_left (edges_behind longer) 1)
      (Nat.add_le_add_left (edges_behind store) 1)
  rw [between_eq (extended.find? found) (by rw [same]; exact seeks.hidden), same,
    between_eq found seeks.hidden]

end Walks

/-! ## Histories -/

/-- The commits behind a head, oldest first, by time where the order is free. -/
def Repository.historyOf (repository : Repository) : Option ObjectId → List Commit
  | none => []
  | some head => History.unwind History.byTime (repository.between head [])

theorem Repository.history_eq (repository : Repository) :
    repository.history = repository.historyOf repository.headId? := by
  unfold Repository.history Repository.historyOf
  cases repository.headId? <;> rfl

/-- **The history of a head** that is stored is the same in an extended store. -/
theorem historyOf_extends {before after : Repository} (extended : before.Extends after)
    (grown : Grown before.commits) {head : Option ObjectId}
    (stored : ∀ id, head = some id → (before.find? id).isSome) :
    after.historyOf head = before.historyOf head := by
  cases head with
  | none => rfl
  | some id =>
      obtain ⟨commit, found⟩ := Option.isSome_iff_exists.1 (stored id rfl)
      obtain rfl := id_of_find? found
      unfold Repository.historyOf
      dsimp only
      rw [between_extends extended grown found]

end TokenBlame.Git
