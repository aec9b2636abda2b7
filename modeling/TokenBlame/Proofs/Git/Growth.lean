/-
# TokenBlame.Proofs.Git.Growth -- one more commit on top of any history

Behind a commit without parents lies nothing else (`between_root`), and behind one that is
made on top of another lies that one with all behind it (`between_cons`).  So a commit that is
made on top of HEAD is the last one of the new history, and what stands in front of it is the
old history as it was (`history_advance`).
-/
import TokenBlame.Proofs.Git.Walk
import TokenBlame.Git.History

set_option autoImplicit false

namespace TokenBlame.Git

/-! ## What lies behind a commit -/

section Between

variable {repository longer : Repository} {commits rest : List Commit} {first made : Commit}

theorem between_eq (found : repository.find? first.id = some first)
    (hidden : (Walk.run repository (1 + (repository.commits.flatMap (·.parents)).length)
      (Walk.start first)).hidden = []) :
    repository.between first.id [] = (Walk.run repository
      (1 + (repository.commits.flatMap (·.parents)).length) (Walk.start first)).found.reverse := by
  unfold Repository.between
  have starts : (([] : List ObjectId).reverse ++ [first.id]).eraseDups = [first.id] := by
    simp [List.eraseDups_cons]
  have walk : ({ waiting := [first], read := [first.id], seen := [first.id], hidden := [] } : Walk) =
      Walk.start first := rfl
  simp only [starts, List.filterMap_cons, found, List.filterMap_nil, List.foldl_cons,
    List.foldl_nil]
  rw [if_neg (by simp), walk, List.length_singleton, hidden]
  simp

/-- Behind a commit without parents lies nothing else. -/
theorem between_root (root : made.parents = []) (own : longer.find? made.id = some made) :
    longer.between made.id [] = [made] := by
  have idle : ∀ count, Walk.run longer (1 + count) (Walk.start made) =
      { Walk.start made with waiting := [], followed := [made.id], found := [made] } := by
    intro count
    rw [Nat.add_comm, Walk.run_visit (Walk.seeks_start (List.mem_singleton_self made)) rfl,
      Walk.visit, root]
    exact Walk.run_idle rfl count
  rw [between_eq own (by rw [idle]; rfl), idle]
  rfl

/-- What stands behind a commit has no more parents than all commits. -/
theorem edges_behind (store : repository.commits = commits ++ first :: rest) :
    ((first :: rest).flatMap (·.parents)).length ≤
      (repository.commits.flatMap (·.parents)).length := by
  rw [store]
  exact ((List.sublist_append_right commits (first :: rest)).flatMap Commit.parents).length_le

/-- Behind a commit that is made on top of another one lies that one with all behind it. -/
theorem between_cons (store : repository.commits = commits ++ first :: rest)
    (grown : Grown repository.commits) (only : made.parents = [first.id])
    (new : made.id ∉ (first :: rest).map (·.id))
    (held : (made :: first :: rest).Sublist longer.commits)
    (own : longer.find? made.id = some made)
    (same : ∀ id ∈ (first :: rest).map (·.id), longer.find? id = repository.find? id) :
    longer.between made.id [] = made :: repository.between first.id [] := by
  have top : first.id ∈ made.parents := by rw [only]; exact List.mem_singleton_self _
  have found : repository.find? first.id = some first :=
    find?_of_mem grown.distinct (store ▸ List.mem_append_right _ List.mem_cons_self)
  have found' : longer.find? first.id = some first := by
    rw [same first.id (List.mem_map_of_mem List.mem_cons_self), found]
  -- the first step of the longer walk
  have first_step : ∀ count, Walk.run longer (1 + count) (Walk.start made) =
      ((Walk.run repository count (Walk.start first)).above made) := by
    intro count
    have apart : first.id ∉ (Walk.start made).seen := fun eq =>
      new (List.mem_singleton.1 eq ▸ List.mem_map_of_mem List.mem_cons_self)
    have moved : (Walk.start made).visit longer made [] = (Walk.start first).above made := by
      unfold Walk.visit
      rw [only, List.filterMap_cons, found']
      exact Walk.followFound_of_unseen apart
    rw [Nat.add_comm, Walk.run_visit (Walk.seeks_start (List.mem_singleton_self made)) rfl,
      moved, Walk.run_above store grown top new same (Walk.seeks_start List.mem_cons_self)]
  -- both walks have steps enough
  have bound := (held.flatMap (·.parents)).length_le
  rw [List.flatMap_cons, List.length_append, only, List.length_singleton] at bound
  have less := edges_behind store
  obtain ⟨seeks, -⟩ := (Walk.seeks_start List.mem_cons_self).run store grown
    (1 + (repository.commits.flatMap (·.parents)).length)
  have enough := Walk.run_enough store grown bound (Nat.add_le_add_left less 1)
  rw [between_eq own, first_step, enough, between_eq found seeks.hidden]
  · show (_ ++ [made]).reverse = _
    rw [List.reverse_concat]
  · rw [first_step, enough]
    exact seeks.hidden

/-- What lies behind a commit: that one, commits behind it, each once. -/
theorem between_closed (store : repository.commits = commits ++ first :: rest)
    (grown : Grown repository.commits) :
    ((repository.between first.id []).map (·.id)).Nodup ∧ first ∈ repository.between first.id [] ∧
      (∀ commit ∈ repository.between first.id [], commit ∈ first :: rest) ∧
      ∀ commit ∈ repository.between first.id [], commit = first ∨
        ∃ child ∈ repository.between first.id [], commit.id ∈ child.parents := by
  have found : repository.find? first.id = some first :=
    find?_of_mem grown.distinct (store ▸ List.mem_append_right _ List.mem_cons_self)
  have ends := Walk.waiting_run store grown (Nat.add_le_add_left (edges_behind store) 1)
  obtain ⟨seeks, -⟩ := (Walk.seeks_start List.mem_cons_self).run store grown
    (1 + (repository.commits.flatMap (·.parents)).length)
  rw [between_eq found seeks.hidden]
  generalize Walk.run repository _ (Walk.start first) = walk at ends seeks
  have known : walk.known = walk.found := by
    unfold Walk.known
    rw [ends]
    rfl
  obtain ⟨-, inside, distinct, -, -, origin, child⟩ := seeks
  rw [known] at inside distinct origin child
  refine ⟨?_, List.mem_reverse.2 origin, fun commit member => inside commit (List.mem_reverse.1 member),
    fun commit member => ?_⟩
  · rw [List.map_reverse, List.nodup_reverse]
    exact distinct
  · exact (child commit (List.mem_reverse.1 member)).imp_right fun ⟨other, among, parent⟩ =>
      ⟨other, List.mem_reverse.2 among, parent⟩

end Between

/-! ## The order of what lies behind a commit -/

theorem hasChild_eq_true {others : List Commit} {commit : Commit} :
    History.hasChild others commit = true ↔ ∃ child ∈ others, commit.id ∈ child.parents := by
  unfold History.hasChild
  rw [List.any_eq_true]
  simp only [List.contains_iff_mem]

/-- The only commit without a child is the one to begin with. -/
theorem tips_eq_singleton {commits : List Commit} {first : Commit}
    (distinct : (commits.map (·.id)).Nodup) (member : first ∈ commits)
    (childless : ∀ commit ∈ commits, first.id ∉ commit.parents)
    (child : ∀ commit ∈ commits, commit = first ∨ ∃ child ∈ commits, commit.id ∈ child.parents) :
    commits.filter (fun commit => !History.hasChild commits commit) = [first] := by
  have same : commits.filter (fun commit => !History.hasChild commits commit) =
      commits.filter (· == first) := by
    apply List.filter_congr
    intro commit inside
    rw [Bool.eq_iff_iff, beq_iff_eq, Bool.not_eq_true', Bool.eq_false_iff, Ne, hasChild_eq_true]
    constructor
    · exact (child commit inside).resolve_right
    · rintro rfl ⟨other, among, parent⟩
      exact childless other among parent
  rw [same, List.filter_beq, List.count_eq_one_of_mem (List.Nodup.of_map _ distinct) member]
  rfl

/-- A commit without parents is a history of its own. -/
theorem unwind_root {made : Commit} (root : made.parents = []) :
    History.unwind History.byTime [made] = [made] := by
  have tips : [made].filter (fun commit => !History.hasChild [made] commit) = [made] := by
    refine @tips_eq_singleton [made] made ?_ ?_ ?_ ?_
    · exact List.nodup_singleton made.id
    · exact List.mem_singleton_self made
    · intro commit inside
      rw [List.mem_singleton.1 inside, root]
      exact List.not_mem_nil
    · exact fun commit inside => Or.inl (List.mem_singleton.1 inside)
  have taken : History.byTime.next? [made] = some (made, []) := rfl
  have joined : History.byTime.join made [] = [made] := rfl
  unfold History.unwind
  simp only [tips, List.foldl_cons, List.foldl_nil, joined, List.length_cons]
  rw [History.emit, taken]
  rfl

theorem filter_not_first {first : Commit} {rest : List Commit}
    (distinct : ((first :: rest).map (·.id)).Nodup) :
    rest.filter (fun other => !([first].contains other)) = rest := by
  rw [List.filter_eq_self]
  intro commit member
  have away : commit ≠ first := by
    rintro rfl
    exact id_ne_of_mem distinct member rfl
  simpa using away

/-- **The last commit of all** is the one that is made on top of the others. -/
theorem unwind_concat {commits : List Commit} {first made : Commit}
    (distinct : (commits.map (·.id)).Nodup) (member : first ∈ commits)
    (only : made.parents = [first.id]) (new : made.id ∉ commits.map (·.id))
    (childless : ∀ commit ∈ commits, made.id ∉ commit.parents ∧ first.id ∉ commit.parents)
    (child : ∀ commit ∈ commits, commit = first ∨ ∃ child ∈ commits, commit.id ∈ child.parents) :
    History.unwind History.byTime (made :: commits) =
      History.unwind History.byTime commits ++ [made] := by
  have distinct' : ((made :: commits).map (·.id)).Nodup := List.nodup_cons.2 ⟨new, distinct⟩
  -- each list has one commit to begin with
  have own : commits.filter (fun commit => !History.hasChild commits commit) = [first] :=
    tips_eq_singleton distinct member (fun other among => (childless other among).2) child
  have tips : (made :: commits).filter (fun commit => !History.hasChild (made :: commits) commit) =
      [made] := by
    apply tips_eq_singleton distinct' List.mem_cons_self
    · intro other among parent
      rcases List.mem_cons.1 among with rfl | among
      · rw [only, List.mem_singleton] at parent
        exact new (parent ▸ List.mem_map_of_mem member)
      · exact (childless other among).1 parent
    · intro commit inside
      refine (List.mem_cons.1 inside).imp_right fun among => ?_
      rcases child commit among with rfl | ⟨other, found, parent⟩
      · exact ⟨made, List.mem_cons_self, by rw [only]; exact List.mem_singleton_self _⟩
      · exact ⟨other, List.mem_cons_of_mem _ found, parent⟩
  have others : (made :: commits).filter (fun commit => !([made].contains commit)) = commits := by
    rw [List.filter_cons, if_neg (by simp)]
    exact filter_not_first distinct'
  -- the new commit is emitted first, and its parent is free then
  have parents : History.parentsIn commits made = [first] := by
    unfold History.parentsIn
    rw [only]
    simp [List.eraseDups_cons, find?_of_mem distinct member]
  have free : [first].filter (fun parent => !History.hasChild ([] ++ commits) parent) = [first] := by
    have none : History.hasChild commits first = false := by
      rw [Bool.eq_false_iff, Ne, hasChild_eq_true]
      rintro ⟨other, among, parent⟩
      exact (childless other among).2 parent
    simp [none]
  have taken : History.byTime.next? [made] = some (made, []) := rfl
  have joined : History.byTime.join made [] = [made] := rfl
  unfold History.unwind
  simp only [tips, own, others, List.foldl_cons, List.foldl_nil, joined, List.length_cons]
  rw [History.emit, taken]
  simp only [parents, free, List.foldl_cons, List.foldl_nil, List.reverse_cons]

/-! ## Histories -/

section History

variable {repository : Repository} {made : Commit} {parent : Option Commit}

/-- A store with a commit on top of HEAD is grown. -/
theorem grown_advance (grown : Grown repository.commits) (tip : repository.tipCommit = .ok parent)
    (parents : made.parents = (parent.map (·.id)).toList) :
    Grown (repository.advance made).commits := by
  rw [commits_advance]
  split
  · exact grown
  · rename_i absent
    refine ⟨?_, fun member => absent (isSome_find?_iff.2 member), grown⟩
    intro id member
    rw [parents, Option.mem_toList, Option.map_eq_some_iff] at member
    obtain ⟨commit, here, rfl⟩ := member
    exact List.mem_map_of_mem (List.mem_of_find?_eq_some ((tipCommit_eq_ok tip).2 commit here))

/-- The store has a commit that is made, under its name. -/
theorem find?_advance (admits : repository.Admits made) :
    (repository.advance made).find? made.id = some made := by
  unfold Repository.find?
  rw [commits_advance]
  split
  · rename_i there
    obtain ⟨other, found⟩ := Option.isSome_iff_exists.1 there
    obtain rfl := admits other (List.mem_of_find?_eq_some found) (id_of_find? found)
    exact found
  · rw [List.find?_cons, beq_self_eq_true]

/-- Other names are looked up as before. -/
theorem find?_advance_of_ne {id : ObjectId} (other : made.id ≠ id) :
    (repository.advance made).find? id = repository.find? id := by
  unfold Repository.find?
  rw [commits_advance]
  split
  · rfl
  · rw [List.find?_cons, beq_eq_false_iff_ne.2 other]

/-- A commit that is made stands in front of what is behind HEAD, wherever it stands. -/
theorem sublist_advance {front rest : List Commit} {first : Commit}
    (store : repository.commits = front ++ first :: rest)
    (new : made.id ∉ (first :: rest).map (·.id))
    (own : (repository.advance made).find? made.id = some made) :
    (made :: first :: rest).Sublist (repository.advance made).commits := by
  have member := List.mem_of_find?_eq_some own
  rw [commits_advance] at member ⊢
  split at member
  · rename_i there
    rw [if_pos there, store]
    rw [store, List.mem_append] at member
    rcases member with before | behind
    · exact (List.singleton_sublist.2 before).append_right (first :: rest)
    · exact absurd (List.mem_map_of_mem behind) new
  · rename_i absent
    rw [if_neg absent, store]
    exact (List.sublist_append_right front (first :: rest)).cons_cons made

/-- HEAD is at a commit that was put on top of it. -/
theorem tipCommit_advance (admits : repository.Admits made) :
    (repository.advance made).tipCommit = .ok (some made) := by
  refine tipCommit_eq_ok_iff.2 ⟨tip_advance repository made, ?_⟩
  rintro _ ⟨⟩
  exact find?_advance admits

/-- The first commit of all is the whole history. -/
theorem history_advance_root (headId : repository.headId? = none) (root : made.parents = [])
    (own : (repository.advance made).find? made.id = some made) :
    (repository.advance made).history = repository.history ++ [made] := by
  unfold Repository.history
  rw [headId?_advance, headId]
  dsimp only
  rw [between_root root own, unwind_root root]
  rfl

/-- A commit on top of another one is behind all that the history was. -/
theorem history_advance_child {first : Commit} (grown : Grown repository.commits)
    (headId : repository.headId? = some first.id) (stored : repository.find? first.id = some first)
    (only : made.parents = [first.id]) (admits : repository.Admits made)
    (own : (repository.advance made).find? made.id = some made) :
    (repository.advance made).history = repository.history ++ [made] := by
  have top : first.id ∈ made.parents := by rw [only]; exact List.mem_singleton_self _
  obtain ⟨front, rest, store⟩ := List.append_of_mem (List.mem_of_find?_eq_some stored)
  have new : made.id ∉ (first :: rest).map (·.id) :=
    (store ▸ grown).above top (store ▸ admits)
  have same : ∀ id ∈ (first :: rest).map (·.id),
      (repository.advance made).find? id = repository.find? id :=
    fun id member => find?_advance_of_ne fun eq => new (eq ▸ member)
  obtain ⟨distinct, origin, inside, child⟩ := between_closed store grown
  unfold Repository.history
  rw [headId?_advance, headId]
  dsimp only
  rw [between_cons store grown only new (sublist_advance store new own) own same]
  refine unwind_concat distinct origin only ?_ ?_ child
  · intro member
    obtain ⟨commit, behind, name⟩ := List.mem_map.1 member
    exact new (name ▸ List.mem_map_of_mem (inside commit behind))
  · rw [store] at grown
    intro commit behind
    refine ⟨fun parent => new ?_, grown.behind.childless (inside commit behind)⟩
    exact List.mem_cons_of_mem _ (grown.behind.parent (inside commit behind) parent)

/-- **A commit on top of HEAD** is the last one of the history, and what stands in front of
it is the history as it was. -/
theorem history_advance (grown : Grown repository.commits) (tip : repository.tipCommit = .ok parent)
    (parents : made.parents = (parent.map (·.id)).toList) (admits : repository.Admits made) :
    (repository.advance made).history = repository.history ++ [made] := by
  obtain ⟨headId, found⟩ := tipCommit_eq_ok tip
  have own := find?_advance admits
  cases parent with
  | none => exact history_advance_root headId parents own
  | some first => exact history_advance_child grown headId (found first rfl) parents admits own

end History

end TokenBlame.Git
