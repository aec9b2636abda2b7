/-
# TokenBlame.Proofs.Git.Walk -- walks that hide nothing

A store of commits is grown (`Grown`) when no name occurs twice and the parents of each
commit stand behind it; its histories may branch and merge.  A walk from a commit of such a
store comes to everything behind that commit, each commit once (`Seeks`), and the number of
its steps is enough for that (`waiting_run`).

A walk that begins at a child first goes to the commit and then takes the same way as the
walk that begins there (`run_above`).
-/
import TokenBlame.Proofs.Git.Store
import TokenBlame.Git.Walk
import Mathlib.Data.List.Flatten
import Mathlib.Data.List.Nodup
import Mathlib.Data.List.Perm.Subperm

set_option autoImplicit false

namespace TokenBlame.Git

/-! ## Grown stores -/

/-- Commits of different names, the parents of each behind it. -/
def Grown : List Commit → Prop
  | [] => True
  | commit :: rest =>
      (∀ id ∈ commit.parents, id ∈ rest.map (·.id)) ∧ commit.id ∉ rest.map (·.id) ∧ Grown rest

/-- No other commit has the name of this one. -/
def Repository.Admits (repository : Repository) (commit : Commit) : Prop :=
  ∀ other ∈ repository.commits, other.id = commit.id → other = commit

section Grown

variable {commits front rest : List Commit} {commit first : Commit}

theorem Grown.distinct (grown : Grown commits) : (commits.map (·.id)).Nodup := by
  induction commits with
  | nil => exact List.nodup_nil
  | cons commit rest ih =>
      obtain ⟨-, new, grown⟩ := grown
      exact List.nodup_cons.2 ⟨new, ih grown⟩

theorem Grown.behind (grown : Grown (front ++ rest)) : Grown rest := by
  induction front with
  | nil => exact grown
  | cons commit front ih => exact ih grown.2.2

theorem Grown.parent (grown : Grown (first :: rest)) (member : commit ∈ first :: rest)
    {id : ObjectId} (parent : id ∈ commit.parents) : id ∈ rest.map (·.id) := by
  induction rest generalizing first with
  | nil =>
      rw [List.mem_singleton.1 member] at parent
      exact absurd (grown.1 id parent) List.not_mem_nil
  | cons next rest ih =>
      rcases List.mem_cons.1 member with rfl | later
      · exact grown.1 id parent
      · exact List.mem_cons_of_mem _ (ih grown.2.2 later)

/-- Nothing behind a commit has it for a parent. -/
theorem Grown.childless (grown : Grown (first :: rest)) (member : commit ∈ first :: rest) :
    first.id ∉ commit.parents :=
  fun parent => grown.2.1 (grown.parent member parent)

/-- A commit that is made on top of another one does not stand behind it. -/
theorem Grown.above (grown : Grown (front ++ first :: rest)) {made : Commit}
    (top : first.id ∈ made.parents)
    (admits : ∀ other ∈ front ++ first :: rest, other.id = made.id → other = made) :
    made.id ∉ (first :: rest).map (·.id) := by
  intro inside
  obtain ⟨other, member, same⟩ := List.mem_map.1 inside
  obtain rfl := admits other (List.mem_append_right _ member) same
  exact grown.behind.childless member top

end Grown

/-! ## Walks that hide nothing -/

namespace Walk

/-- A walk that begins with one commit. -/
def start (first : Commit) : Walk :=
  { waiting := [first], read := [first.id], seen := [first.id], hidden := [] }

/-- A walk that has found the next commit, with others waiting, and has come to its parents. -/
def visit (repository : Repository) (commit : Commit) (waiting : List Commit) (walk : Walk) : Walk :=
  (commit.parents.filterMap repository.find?).foldl followFound { walk with
    waiting, followed := commit.id :: walk.followed, found := commit :: walk.found }

/-- The commits that a walk has come to. -/
def known (walk : Walk) : List Commit := walk.waiting ++ walk.found

/-- A walk that hides nothing and has come, each time once, to a commit and to commits
behind it, all of them among the given ones. -/
structure Seeks (commits : List Commit) (first : Commit) (walk : Walk) : Prop where
  hidden : walk.hidden = []
  inside : ∀ commit ∈ walk.known, commit ∈ commits
  distinct : (walk.known.map (·.id)).Nodup
  seen : ∀ id, id ∈ walk.seen ↔ id ∈ walk.known.map (·.id)
  followed : walk.followed = walk.found.map (·.id)
  origin : first ∈ walk.known
  child : ∀ commit ∈ walk.known, commit = first ∨ ∃ child ∈ walk.found, commit.id ∈ child.parents

theorem seeks_start {commits : List Commit} {first : Commit} (member : first ∈ commits) :
    (start first).Seeks commits first where
  hidden := rfl
  inside := by
    intro commit inside
    rw [List.mem_singleton.1 inside]
    exact member
  distinct := List.nodup_cons.2 ⟨List.not_mem_nil, List.nodup_nil⟩
  seen _ := Iff.rfl
  followed := rfl
  origin := List.mem_singleton_self _
  child _ inside := Or.inl (List.mem_singleton.1 inside)

section Steps

variable {repository : Repository} {commits waiting : List Commit} {first commit parent : Commit}
  {walk : Walk} {id : ObjectId}

theorem known_enqueue (walk : Walk) (commit : Commit) :
    (walk.enqueue commit).known.Perm (commit :: walk.known) := by
  have line := @List.perm_middle _ commit
    (walk.waiting.takeWhile fun other => commit.committer.time ≤ other.committer.time)
    (walk.waiting.dropWhile fun other => commit.committer.time ≤ other.committer.time)
  rw [List.takeWhile_append_dropWhile] at line
  exact line.append_right walk.found

theorem hidden_followFound (walk : Walk) (parent : Commit) :
    (walk.followFound parent).hidden = walk.hidden := by
  unfold Walk.followFound
  split <;> rfl

theorem found_followFound (walk : Walk) (parent : Commit) :
    (walk.followFound parent).found = walk.found := by
  unfold Walk.followFound
  split <;> rfl

theorem followFound_of_unseen (unseen : parent.id ∉ walk.seen) :
    walk.followFound parent = enqueue { walk with read := parent.id :: walk.read } parent := by
  unfold Walk.followFound
  rw [if_neg (by simpa using unseen)]

theorem mem_seen_followFound :
    id ∈ (walk.followFound parent).seen ↔ id = parent.id ∨ id ∈ walk.seen := by
  unfold Walk.followFound
  split
  · rename_i seen
    refine ⟨Or.inr, ?_⟩
    rintro (rfl | before)
    · exact List.contains_iff_mem.1 seen
    · exact before
  · exact List.mem_cons

/-- What a walk comes to from a commit that it has found. -/
theorem Seeks.followFound (seeks : walk.Seeks commits first) (member : parent ∈ commits)
    (child : ∃ child ∈ walk.found, parent.id ∈ child.parents) :
    (walk.followFound parent).Seeks commits first := by
  unfold Walk.followFound
  split
  · exact ⟨seeks.hidden, seeks.inside, seeks.distinct, seeks.seen, seeks.followed, seeks.origin,
      seeks.child⟩
  · rename_i unseen
    have new : parent.id ∉ walk.known.map (·.id) := by
      rw [← seeks.seen]
      simpa using unseen
    have all := known_enqueue { walk with read := parent.id :: walk.read } parent
    have ids := all.map (·.id)
    rw [List.map_cons] at ids
    refine ⟨seeks.hidden, ?_, ?_, ?_, seeks.followed, ?_, ?_⟩
    · intro commit inside
      rcases List.mem_cons.1 (all.mem_iff.1 inside) with rfl | before
      · exact member
      · exact seeks.inside commit before
    · rw [ids.nodup_iff]
      exact List.nodup_cons.2 ⟨new, seeks.distinct⟩
    · intro id
      rw [ids.mem_iff]
      show id ∈ parent.id :: walk.seen ↔ id ∈ parent.id :: walk.known.map (·.id)
      rw [List.mem_cons, List.mem_cons, seeks.seen]
    · exact all.mem_iff.2 (List.mem_cons_of_mem _ seeks.origin)
    · intro commit inside
      rcases List.mem_cons.1 (all.mem_iff.1 inside) with rfl | before
      · exact Or.inr child
      · exact seeks.child commit before

/-- What a walk comes to from the parents of a commit that it has found. -/
theorem Seeks.foldl (seeks : walk.Seeks commits first) {parents : List Commit}
    (member : ∀ parent ∈ parents, parent ∈ commits)
    (child : ∃ child ∈ walk.found, ∀ parent ∈ parents, parent.id ∈ child.parents) :
    (parents.foldl Walk.followFound walk).Seeks commits first := by
  induction parents generalizing walk with
  | nil => exact seeks
  | cons parent parents ih =>
      obtain ⟨origin, found, each⟩ := child
      refine ih (seeks.followFound (member parent List.mem_cons_self)
        ⟨origin, found, each parent List.mem_cons_self⟩)
        (fun p inside => member p (List.mem_cons_of_mem _ inside)) ⟨origin, ?_, ?_⟩
      · rw [found_followFound]
        exact found
      · exact fun p inside => each p (List.mem_cons_of_mem _ inside)

/-- The next commit of the waiting line is found. -/
theorem Seeks.find (seeks : walk.Seeks commits first)
    (line : walk.waiting = commit :: waiting) :
    Seeks commits first { walk with
      waiting, followed := commit.id :: walk.followed, found := commit :: walk.found } := by
  have all : (waiting ++ commit :: walk.found).Perm walk.known := by
    unfold known
    rw [line]
    exact List.perm_middle
  refine ⟨seeks.hidden, ?_, ?_, ?_, ?_, ?_, ?_⟩
  · exact fun c inside => seeks.inside c (all.mem_iff.1 inside)
  · exact (all.map (·.id)).nodup_iff.2 seeks.distinct
  · intro id
    exact (seeks.seen id).trans (all.map (·.id)).mem_iff.symm
  · show commit.id :: walk.followed = _
    rw [seeks.followed]
    rfl
  · exact all.mem_iff.2 seeks.origin
  · intro c inside
    rcases seeks.child c (all.mem_iff.1 inside) with rfl | ⟨origin, found, parent⟩
    · exact Or.inl rfl
    · exact Or.inr ⟨origin, List.mem_cons_of_mem _ found, parent⟩

/-- What is found is apart from what the walk comes to from there. -/
theorem foldl_found (walk : Walk) (parents found : List Commit) :
    { parents.foldl Walk.followFound walk with found } =
      parents.foldl Walk.followFound { walk with found } := by
  induction parents generalizing walk with
  | nil => rfl
  | cons parent parents ih =>
      rw [List.foldl_cons, List.foldl_cons, ih]
      congr 1
      unfold Walk.followFound
      dsimp only
      split <;> rfl

theorem hidden_foldl (walk : Walk) (parents : List Commit) :
    (parents.foldl Walk.followFound walk).hidden = walk.hidden := by
  induction parents generalizing walk with
  | nil => rfl
  | cons parent parents ih => rw [List.foldl_cons, ih, hidden_followFound]

theorem found_foldl (walk : Walk) (parents : List Commit) :
    (parents.foldl Walk.followFound walk).found = walk.found := by
  induction parents generalizing walk with
  | nil => rfl
  | cons parent parents ih => rw [List.foldl_cons, ih, found_followFound]

/-- One step of a walk that hides nothing. -/
theorem run_visit (seeks : walk.Seeks commits first) (line : walk.waiting = commit :: waiting)
    (count : Nat) :
    Walk.run repository (count + 1) walk =
      Walk.run repository count (walk.visit repository commit waiting) := by
  have new : walk.followed.contains commit.id = false := by
    have distinct := seeks.distinct
    unfold known at distinct
    rw [line, List.cons_append, List.map_cons, List.nodup_cons, List.map_append] at distinct
    rw [seeks.followed, Bool.eq_false_iff, Ne, List.contains_iff_mem]
    exact fun member => distinct.1 (List.mem_append_right _ member)
  have followed : Walk.follow repository { walk with waiting } commit =
      (commit.parents.filterMap repository.find?).foldl Walk.followFound
        { walk with waiting, followed := commit.id :: walk.followed } := by
    unfold Walk.follow
    simp only [new, seeks.hidden]
    rfl
  conv => lhs; unfold Walk.run
  simp only [line]
  rw [followed, if_neg (by rw [hidden_foldl, seeks.hidden]; simp), found_foldl]
  exact congrArg (Walk.run repository count) (foldl_found _ _ _)

end Steps

/-! ## Whole walks -/

section Runs

variable {repository : Repository} {commits rest : List Commit} {first commit : Commit}
  {walk : Walk}

/-- The parents of a commit that stands among given ones, which are closed. -/
theorem parents_found (store : repository.commits = commits ++ first :: rest)
    (grown : Grown repository.commits) (member : commit ∈ first :: rest) :
    (commit.parents.filterMap repository.find?).map (·.id) = commit.parents ∧
      ∀ parent ∈ commit.parents.filterMap repository.find?, parent ∈ first :: rest := by
  have distinct := grown.distinct
  have found : ∀ id ∈ commit.parents, ∃ parent ∈ first :: rest, parent.id = id ∧
      repository.find? id = some parent := by
    intro id parent
    rw [store] at grown
    obtain ⟨other, inside, rfl⟩ := List.mem_map.1 (grown.behind.parent member parent)
    have stored : other ∈ repository.commits := by
      rw [store]
      exact List.mem_append_right _ (List.mem_cons_of_mem _ inside)
    exact ⟨other, List.mem_cons_of_mem _ inside, rfl, find?_of_mem distinct stored⟩
  generalize commit.parents = ids at found
  induction ids with
  | nil => exact ⟨rfl, fun _ none => absurd none List.not_mem_nil⟩
  | cons id ids ih =>
      obtain ⟨parent, inside, rfl, own⟩ := found id List.mem_cons_self
      obtain ⟨same, all⟩ := ih fun other later => found other (List.mem_cons_of_mem _ later)
      rw [List.filterMap_cons, own]
      refine ⟨by rw [List.map_cons, same], ?_⟩
      intro other later
      rcases List.mem_cons.1 later with rfl | later
      · exact inside
      · exact all other later

/-- A step leads from a seeking walk to a seeking one. -/
theorem Seeks.visit (store : repository.commits = commits ++ first :: rest)
    (grown : Grown repository.commits) (seeks : walk.Seeks (first :: rest) first)
    {waiting : List Commit} (line : walk.waiting = commit :: waiting) :
    (walk.visit repository commit waiting).Seeks (first :: rest) first := by
  have member : commit ∈ first :: rest :=
    seeks.inside commit (by rw [known, line]; exact List.mem_cons_self)
  obtain ⟨ids, all⟩ := parents_found store grown member
  refine (seeks.find line).foldl all ⟨commit, List.mem_cons_self, fun parent inside => ?_⟩
  rw [← ids]
  exact List.mem_map_of_mem inside

theorem run_idle (line : walk.waiting = []) (count : Nat) :
    Walk.run repository count walk = walk := by
  cases count with
  | zero => rfl
  | succ count =>
      unfold Walk.run
      rw [line]

/-- A walk seeks on, and it ends or finds a commit with each step. -/
theorem Seeks.run (store : repository.commits = commits ++ first :: rest)
    (grown : Grown repository.commits) (seeks : walk.Seeks (first :: rest) first) (count : Nat) :
    (Walk.run repository count walk).Seeks (first :: rest) first ∧
      ((Walk.run repository count walk).waiting = [] ∨
        (Walk.run repository count walk).found.length = walk.found.length + count) := by
  induction count generalizing walk with
  | zero => exact ⟨seeks, Or.inr rfl⟩
  | succ count ih =>
      cases line : walk.waiting with
      | nil =>
          rw [run_idle line]
          exact ⟨seeks, Or.inl line⟩
      | cons commit waiting =>
          rw [run_visit seeks line]
          obtain ⟨seeks', ends⟩ := ih (seeks.visit store grown line)
          refine ⟨seeks', ends.imp_right fun longer => ?_⟩
          rw [longer, Walk.visit, found_foldl, List.length_cons]
          omega

/-- A walk comes to no more commits than there are parents, and the first one. -/
theorem Seeks.length_known (seeks : walk.Seeks commits first) :
    walk.known.length ≤ 1 + (commits.flatMap (·.parents)).length := by
  have named : walk.known.map (·.id) ⊆ first.id :: walk.found.flatMap (·.parents) := by
    intro id member
    obtain ⟨commit, inside, rfl⟩ := List.mem_map.1 member
    rcases seeks.child commit inside with rfl | ⟨child, found, parent⟩
    · exact List.mem_cons_self
    · exact List.mem_cons_of_mem _ (List.mem_flatMap.2 ⟨child, found, parent⟩)
  have ids := (List.subperm_of_subset seeks.distinct named).length_le
  have once : walk.found.Nodup := (List.Nodup.of_map _ seeks.distinct).of_append_right
  have inside : walk.found ⊆ commits := fun commit found =>
    seeks.inside commit (List.mem_append_right _ found)
  obtain ⟨part, perm, sublist⟩ := List.subperm_of_subset once inside
  have edges := (perm.flatMap_right (·.parents)).length_eq
  have more := (sublist.flatMap (·.parents)).length_le
  rw [List.length_map, List.length_cons] at ids
  omega

/-- As many steps as there are parents, and one more, are enough. -/
theorem waiting_run (store : repository.commits = commits ++ first :: rest)
    (grown : Grown repository.commits) {count : Nat}
    (enough : 1 + ((first :: rest).flatMap (·.parents)).length ≤ count) :
    (Walk.run repository count (start first)).waiting = [] := by
  obtain ⟨seeks, ends⟩ := (seeks_start List.mem_cons_self).run store grown count
  rcases ends with none | longer
  · exact none
  · have bound := seeks.length_known
    rw [known, List.length_append, longer] at bound
    exact List.eq_nil_of_length_eq_zero (by omega)

/-- More steps make no difference to a walk that has ended. -/
theorem run_more (store : repository.commits = commits ++ first :: rest)
    (grown : Grown repository.commits) (seeks : walk.Seeks (first :: rest) first) {count : Nat}
    (ends : (Walk.run repository count walk).waiting = []) (more : Nat) :
    Walk.run repository (count + more) walk = Walk.run repository count walk := by
  induction count generalizing walk with
  | zero =>
      rw [Nat.zero_add]
      exact run_idle ends more
  | succ count ih =>
      cases line : walk.waiting with
      | nil => rw [run_idle line, run_idle line]
      | cons commit waiting =>
          rw [run_visit seeks line] at ends
          rw [Nat.add_right_comm, run_visit seeks line, run_visit seeks line]
          exact ih (seeks.visit store grown line) ends

/-- Numbers of steps that are enough make no difference. -/
theorem run_enough (store : repository.commits = commits ++ first :: rest)
    (grown : Grown repository.commits) {count other : Nat}
    (enough : 1 + ((first :: rest).flatMap (·.parents)).length ≤ count)
    (enough' : 1 + ((first :: rest).flatMap (·.parents)).length ≤ other) :
    Walk.run repository count (start first) = Walk.run repository other (start first) := by
  have least := waiting_run store grown (Nat.le_refl _)
  obtain ⟨more, rfl⟩ := Nat.exists_eq_add_of_le enough
  obtain ⟨more', rfl⟩ := Nat.exists_eq_add_of_le enough'
  rw [run_more store grown (seeks_start List.mem_cons_self) least,
    run_more store grown (seeks_start List.mem_cons_self) least]

end Runs

/-! ## Walks that begin one commit higher -/

section Above

variable {repository longer : Repository} {commits rest : List Commit} {first made : Commit}
  {walk : Walk}

/-- A walk that has found a commit before everything else. -/
def above (made : Commit) (walk : Walk) : Walk :=
  { walk with
    read := walk.read ++ [made.id]
    seen := walk.seen ++ [made.id]
    followed := walk.followed ++ [made.id]
    found := walk.found ++ [made] }

theorem Seeks.above (seeks : walk.Seeks commits first) (top : first.id ∈ made.parents)
    (new : made.id ∉ commits.map (·.id)) : (walk.above made).Seeks (made :: commits) made := by
  have all : (walk.above made).known = walk.known ++ [made] :=
    (List.append_assoc _ _ _).symm
  refine ⟨seeks.hidden, ?_, ?_, ?_, ?_, ?_, ?_⟩
  · intro commit inside
    rw [all, List.mem_append, List.mem_singleton] at inside
    rcases inside with before | rfl
    · exact List.mem_cons_of_mem _ (seeks.inside commit before)
    · exact List.mem_cons_self
  · rw [all, List.map_append, List.nodup_append]
    refine ⟨seeks.distinct, List.nodup_cons.2 ⟨List.not_mem_nil, List.nodup_nil⟩, ?_⟩
    intro id before other last same
    obtain ⟨commit, inside, rfl⟩ := List.mem_map.1 before
    rw [List.map_singleton, List.mem_singleton] at last
    rw [last] at same
    exact new (same ▸ List.mem_map_of_mem (seeks.inside commit inside))
  · intro id
    rw [all, List.map_append, List.mem_append, ← seeks.seen]
    exact List.mem_append
  · show walk.followed ++ [made.id] = (walk.found ++ [made]).map (·.id)
    rw [seeks.followed, List.map_append]
    rfl
  · rw [all]
    exact List.mem_append_right _ (List.mem_singleton_self _)
  · intro commit inside
    rw [all, List.mem_append, List.mem_singleton] at inside
    rcases inside with before | rfl
    · rcases seeks.child commit before with rfl | ⟨child, found, parent⟩
      · exact Or.inr ⟨made, List.mem_append_right _ (List.mem_singleton_self _), top⟩
      · exact Or.inr ⟨child, List.mem_append_left _ found, parent⟩
    · exact Or.inl rfl

theorem above_foldl (walk : Walk) {parents : List Commit}
    (other : ∀ parent ∈ parents, parent.id ≠ made.id) :
    parents.foldl Walk.followFound (walk.above made) =
      (parents.foldl Walk.followFound walk).above made := by
  induction parents generalizing walk with
  | nil => rfl
  | cons parent parents ih =>
      have own : (walk.above made).followFound parent = (walk.followFound parent).above made := by
        have same : (walk.seen ++ [made.id]).contains parent.id = walk.seen.contains parent.id := by
          simp [other parent List.mem_cons_self]
        unfold Walk.followFound above
        dsimp only
        rw [same]
        split <;> rfl
      rw [List.foldl_cons, own, ih _ fun p later => other p (List.mem_cons_of_mem _ later)]
      rfl

/-- From the parent on a walk that has found a commit before goes as it would without. -/
theorem run_above (store : repository.commits = commits ++ first :: rest)
    (grown : Grown repository.commits) (top : first.id ∈ made.parents)
    (new : made.id ∉ (first :: rest).map (·.id))
    (same : ∀ id ∈ (first :: rest).map (·.id), longer.find? id = repository.find? id)
    (seeks : walk.Seeks (first :: rest) first) (count : Nat) :
    Walk.run longer count (walk.above made) = (Walk.run repository count walk).above made := by
  induction count generalizing walk with
  | zero => rfl
  | succ count ih =>
      cases line : walk.waiting with
      | nil =>
          rw [run_idle line]
          exact @run_idle longer (walk.above made) line _
      | cons commit waiting =>
          have line' : (walk.above made).waiting = commit :: waiting := line
          have member : commit ∈ first :: rest :=
            seeks.inside commit (by rw [known, line]; exact List.mem_cons_self)
          obtain ⟨ids, inside⟩ := parents_found store grown member
          have parents : commit.parents.filterMap longer.find? =
              commit.parents.filterMap repository.find? := by
            apply List.filterMap_congr
            intro id parent
            rw [store] at grown
            exact same id (List.mem_cons_of_mem _ (grown.behind.parent member parent))
          have other : ∀ parent ∈ commit.parents.filterMap repository.find?,
              parent.id ≠ made.id := by
            intro parent found eq
            exact new (eq ▸ List.mem_map_of_mem (inside parent found))
          have moved : (walk.above made).visit longer commit waiting =
              (walk.visit repository commit waiting).above made := by
            unfold Walk.visit
            rw [parents]
            exact above_foldl { walk with
              waiting, followed := commit.id :: walk.followed, found := commit :: walk.found } other
          rw [run_visit (seeks.above top new) line', run_visit seeks line, moved,
            ih (seeks.visit store grown line)]

end Above

end Walk

end TokenBlame.Git
