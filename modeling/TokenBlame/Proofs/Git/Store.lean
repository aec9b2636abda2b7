/-
# TokenBlame.Proofs.Git.Store -- the commits of a repository, by name, and the one at HEAD

A name is found exactly if a stored commit has it (`isSome_find?_iff`), and where no name
occurs twice a stored commit is found under its own (`find?_of_mem`).

A commit that is put on top of HEAD is stored in front of the others unless it is there
(`commits_advance`), and HEAD can be read then and names it (`tip_advance`).  The commit at
HEAD is read in two steps, its name and what has that name (`tipCommit_eq_ok_iff`).
-/
import TokenBlame.Git.Repository

set_option autoImplicit false

namespace TokenBlame.Git

/-! ## Names -/

theorem nodup_eraseDups {α : Type} [BEq α] [LawfulBEq α] (xs : List α) : xs.eraseDups.Nodup := by
  match xs with
  | [] => exact List.nodup_nil
  | x :: xs =>
      rw [List.eraseDups_cons, List.nodup_cons]
      exact ⟨fun member => by simp at member, nodup_eraseDups _⟩
termination_by xs.length
decreasing_by exact Nat.lt_succ_of_le (List.length_filter_le _ _)

section Names

variable {commits : List Commit} {commit : Commit} {id : ObjectId}

theorem id_ne_of_mem {first : Commit} {rest : List Commit}
    (distinct : ((first :: rest).map (·.id)).Nodup) (member : commit ∈ rest) :
    commit.id ≠ first.id := by
  intro same
  have inside : commit.id ∈ rest.map (·.id) := List.mem_map_of_mem member
  rw [same] at inside
  exact (List.nodup_cons.1 distinct).1 inside

theorem find?_of_mem (distinct : (commits.map (·.id)).Nodup) (member : commit ∈ commits) :
    commits.find? (fun c => c.id == commit.id) = some commit := by
  induction commits with
  | nil => cases member
  | cons first rest ih =>
      rcases List.mem_cons.1 member with rfl | member
      · simp
      · have other : (first.id == commit.id) = false :=
          beq_eq_false_iff_ne.2 (Ne.symm (id_ne_of_mem distinct member))
        rw [List.find?_cons, other]
        exact ih (List.nodup_cons.1 distinct).2 member

/-- What is found under a name has it. -/
theorem id_of_find? (found : commits.find? (fun c => c.id == id) = some commit) :
    commit.id = id := by
  simpa using List.find?_some found

variable {repository : Repository}

/-- Looking up a name reads nothing but the commits. -/
theorem find?_congr {other : Repository} (same : other.commits = repository.commits) :
    other.find? = repository.find? := by
  funext id
  unfold Repository.find?
  rw [same]

theorem isSome_find?_iff :
    (repository.find? id).isSome = true ↔ id ∈ repository.commits.map (·.id) := by
  unfold Repository.find?
  rw [List.find?_isSome, List.mem_map]
  simp only [beq_iff_eq]

end Names

/-! ## One commit more -/

section Advance

variable {repository : Repository} {commit : Commit}

theorem commits_store (repository : Repository) (commit : Commit) :
    (repository.store commit).commits =
      if (repository.find? commit.id).isSome then repository.commits
      else commit :: repository.commits := by
  unfold Repository.store
  split <;> rfl

/-- Storing a commit changes nothing else. -/
theorem store_eq (repository : Repository) (commit : Commit) :
    repository.store commit =
      { repository with commits := (repository.store commit).commits } := by
  unfold Repository.store
  split <;> rfl

theorem advance_eq (repository : Repository) (commit : Commit) :
    repository.advance commit = { repository with
      commits := (repository.store commit).commits
      branches := repository.branches.insert repository.head commit.id
      damaged := repository.damaged.filter (· != repository.head) } := by
  unfold Repository.advance
  rw [store_eq]
  rfl

theorem commits_advance (repository : Repository) (commit : Commit) :
    (repository.advance commit).commits =
      if (repository.find? commit.id).isSome then repository.commits
      else commit :: repository.commits :=
  commits_store repository commit

theorem headId?_advance (repository : Repository) (commit : Commit) :
    (repository.advance commit).headId? = some commit.id := by
  rw [advance_eq]
  unfold Repository.headId?
  rw [Table.get?_insert, if_pos Std.ReflCmp.compare_self]

/-- A commit that is stored as a new one has a name that no other has. -/
theorem fresh_of_advance (stored : (repository.advance commit).commits ≠ repository.commits) :
    ∀ other ∈ repository.commits, other.id ≠ commit.id := by
  intro other member same
  apply stored
  rw [commits_advance, if_pos (isSome_find?_iff.2 (same ▸ List.mem_map_of_mem member))]

end Advance

/-! ## Reading HEAD -/

section Head

variable {repository : Repository} {commit : Commit} {head : Option ObjectId}
  {parent : Option Commit}

theorem tip_eq_ok_iff :
    repository.tip = .ok head ↔
      repository.damaged.contains repository.head = false ∧ repository.headId? = head := by
  unfold Repository.tip
  cases repository.damaged.contains repository.head <;> simp

/-- HEAD names a commit that was put on top of it. -/
theorem tip_advance (repository : Repository) (commit : Commit) :
    (repository.advance commit).tip = .ok (some commit.id) := by
  refine tip_eq_ok_iff.2 ⟨?_, headId?_advance repository commit⟩
  rw [advance_eq]
  simp

theorem tipCommit_of_unread {fault : GitFault} (tip : repository.tip = .error fault) :
    repository.tipCommit = .error fault := by
  unfold Repository.tipCommit
  rw [tip]

/-- The commit at HEAD is there exactly if HEAD can be read and names a commit that is stored. -/
theorem tipCommit_eq_ok_iff :
    repository.tipCommit = .ok parent ↔
      repository.tip = .ok (parent.map (·.id)) ∧
        ∀ commit, parent = some commit → repository.find? commit.id = some commit := by
  unfold Repository.tipCommit
  constructor
  · intro tip
    split at tip
    · cases tip
    · rename_i unborn
      cases tip
      exact ⟨unborn, fun _ none => nomatch none⟩
    · rename_i id named
      split at tip
      · cases tip
      · rename_i commit found
        cases tip
        obtain rfl := id_of_find? found
        exact ⟨named, fun _ same => Option.some.inj same ▸ found⟩
  · rintro ⟨tip, stored⟩
    rw [tip]
    cases parent with
    | none => rfl
    | some commit =>
        dsimp only [Option.map_some]
        rw [stored commit rfl]

theorem tipCommit_eq_ok (tip : repository.tipCommit = .ok parent) :
    repository.headId? = parent.map (·.id) ∧
      ∀ commit, parent = some commit → repository.find? commit.id = some commit := by
  obtain ⟨named, stored⟩ := tipCommit_eq_ok_iff.1 tip
  exact ⟨(tip_eq_ok_iff.1 named).2, stored⟩

end Head

end TokenBlame.Git
