/-
# TokenBlame.Proofs.Git.Chain -- histories without branches

A repository is a chain of commits (`Chain`) when HEAD names the newest of them and each has
the one before it as its only parent.  A commit on top of HEAD makes the chain one longer
(`Chain.advance`), and the history of HEAD is the whole chain, oldest first
(`Chain.history`): each commit of a chain is made on top of the one before it.
-/
import TokenBlame.Proofs.Git.Growth

set_option autoImplicit false

namespace TokenBlame.Git

/-! ## Chains -/

/-- Commits, newest first, each with the next one as its only parent. -/
def Linked : List Commit → Prop
  | [] => True
  | commit :: rest => commit.parents = (rest.head?.map (·.id)).toList ∧ Linked rest

/-- A repository that is one chain of commits, newest first. -/
structure Chain (repository : Repository) (commits : List Commit) : Prop where
  commits_eq : repository.commits = commits
  headId : repository.headId? = commits.head?.map (·.id)
  sound : repository.damaged.contains repository.head = false
  linked : Linked commits
  distinct : (commits.map (·.id)).Nodup

theorem chain_fresh : Chain {} [] :=
  ⟨rfl, rfl, rfl, trivial, List.nodup_nil⟩

section Linked

variable {first commit : Commit} {commits rest : List Commit}

theorem Linked.grown (linked : Linked commits) (distinct : (commits.map (·.id)).Nodup) :
    Grown commits := by
  induction commits with
  | nil => trivial
  | cons commit rest ih =>
      obtain ⟨own, linked⟩ := linked
      obtain ⟨new, distinct⟩ := List.nodup_cons.1 distinct
      refine ⟨fun id parent => ?_, new, ih linked distinct⟩
      rw [own, Option.mem_toList, Option.map_eq_some_iff] at parent
      obtain ⟨next, head, rfl⟩ := parent
      exact List.mem_map_of_mem (List.mem_of_head? head)

/-- Each commit but the first has a child. -/
theorem Linked.child (linked : Linked (first :: rest)) (member : commit ∈ first :: rest) :
    commit = first ∨ ∃ child ∈ first :: rest, commit.id ∈ child.parents := by
  induction rest generalizing first with
  | nil => exact Or.inl (List.mem_singleton.1 member)
  | cons next rest ih =>
      obtain ⟨own, linked⟩ := linked
      rcases List.mem_cons.1 member with rfl | later
      · exact Or.inl rfl
      · right
        rcases ih linked later with rfl | ⟨child, among, parent⟩
        · exact ⟨first, List.mem_cons_self, by rw [own]; exact List.mem_singleton_self _⟩
        · exact ⟨child, List.mem_cons_of_mem _ among, parent⟩

end Linked

section Chain

variable {repository : Repository} {commits : List Commit}

theorem Chain.find? (chain : Chain repository commits) {commit : Commit}
    (member : commit ∈ commits) : repository.find? commit.id = some commit := by
  unfold Repository.find?
  rw [chain.commits_eq]
  exact find?_of_mem chain.distinct member

theorem Chain.tip (chain : Chain repository commits) : repository.tip = .ok repository.headId? :=
  tip_eq_ok_iff.2 ⟨chain.sound, rfl⟩

theorem Chain.tipCommit (chain : Chain repository commits) :
    repository.tipCommit = .ok commits.head? :=
  tipCommit_eq_ok_iff.2 ⟨tip_eq_ok_iff.2 ⟨chain.sound, chain.headId⟩,
    fun _ newest => chain.find? (List.mem_of_head? newest)⟩

theorem Chain.headTree? (chain : Chain repository commits) :
    repository.headTree? = commits.head?.map (·.tree) := by
  unfold Repository.headTree? Repository.headCommit?
  rw [chain.headId]
  cases commits with
  | nil => rfl
  | cons commit rest =>
      simp only [List.head?_cons, Option.map_some, Option.bind_some]
      rw [chain.find? List.mem_cons_self]
      rfl

/-- A commit on top of HEAD makes the chain one longer. -/
theorem Chain.advance (chain : Chain repository commits) {commit : Commit}
    (parents : commit.parents = (commits.head?.map (·.id)).toList)
    (fresh : ∀ other ∈ commits, other.id ≠ commit.id) :
    Chain (repository.advance commit) (commit :: commits) := by
  have absent : commit.id ∉ repository.commits.map (·.id) := by
    rw [chain.commits_eq]
    intro member
    obtain ⟨other, inside, same⟩ := List.mem_map.1 member
    exact fresh other inside same
  have commits_eq : (repository.advance commit).commits = commit :: commits := by
    rw [commits_advance, if_neg (fun there => absent (isSome_find?_iff.1 there)),
      chain.commits_eq]
  refine ⟨commits_eq, headId?_advance repository commit,
    (tip_eq_ok_iff.1 (tip_advance repository commit)).1, ⟨parents, chain.linked⟩, ?_⟩
  rw [List.map_cons, List.nodup_cons]
  exact ⟨chain.commits_eq ▸ absent, chain.distinct⟩

theorem Chain.grown (chain : Chain repository commits) : Grown commits :=
  chain.linked.grown chain.distinct

end Chain

/-! ## Histories -/

section History

variable {repository : Repository} {commits rest : List Commit} {first : Commit}

/-- Behind the newest commit lies the whole chain: each commit is made on top of the next. -/
theorem between_linked (linked : Linked (first :: rest))
    (distinct : ((first :: rest).map (·.id)).Nodup) (store : repository.commits = first :: rest) :
    repository.between first.id [] = first :: rest := by
  have found : ∀ {commit : Commit}, commit ∈ first :: rest →
      repository.find? commit.id = some commit := by
    unfold Repository.find?
    rw [store]
    exact find?_of_mem distinct
  induction rest generalizing first repository with
  | nil => exact between_root linked.1 (found List.mem_cons_self)
  | cons next rest ih =>
      obtain ⟨new, distinct'⟩ := List.nodup_cons.1 distinct
      -- the store without its newest commit
      have shorter : ({ commits := next :: rest } : Repository).commits = [] ++ next :: rest := rfl
      have found' : ∀ {commit : Commit}, commit ∈ next :: rest →
          ({ commits := next :: rest } : Repository).find? commit.id = some commit :=
        find?_of_mem distinct'
      have same : ∀ id ∈ (next :: rest).map (·.id),
          repository.find? id = ({ commits := next :: rest } : Repository).find? id := by
        intro id member
        obtain ⟨commit, inside, rfl⟩ := List.mem_map.1 member
        rw [found (List.mem_cons_of_mem _ inside), found' inside]
      rw [between_cons shorter (linked.2.grown distinct') linked.1 new
        (store ▸ List.Sublist.refl _) (found List.mem_cons_self) same,
        ih linked.2 distinct' rfl found']

/-- The commits of a chain are emitted one after the other. -/
theorem unwind_linked (linked : Linked commits) (distinct : (commits.map (·.id)).Nodup) :
    History.unwind History.byTime commits = commits.reverse := by
  induction commits with
  | nil => rfl
  | cons made rest ih =>
      obtain ⟨new, distinct'⟩ := List.nodup_cons.1 distinct
      cases rest with
      | nil => exact unwind_root linked.1
      | cons first rest =>
          have grown := linked.grown distinct
          have childless : ∀ commit ∈ first :: rest,
              made.id ∉ commit.parents ∧ first.id ∉ commit.parents := fun commit member =>
            ⟨grown.childless (List.mem_cons_of_mem _ member), grown.2.2.childless member⟩
          rw [unwind_concat distinct' List.mem_cons_self linked.1 new childless
            fun commit member => linked.2.child member, ih linked.2 distinct', ← List.reverse_cons]

/-- **The history of a chain** is the chain, oldest first. -/
theorem Chain.history (chain : Chain repository commits) :
    repository.history = commits.reverse := by
  unfold Repository.history
  rw [chain.headId]
  cases commits with
  | nil => rfl
  | cons first rest =>
      simp only [List.head?_cons, Option.map_some]
      rw [between_linked chain.linked chain.distinct chain.commits_eq,
        unwind_linked chain.linked chain.distinct]

end History

end TokenBlame.Git
