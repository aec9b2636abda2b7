/-
# TokenBlame.Proofs.Transcode.Steps -- what replaying does, stage by stage

A commit has one change for each of its paths (`map_path_of_changes`).  These are staged, what
is staged is sealed, and what goes wrong before that ends the conversion there
(`convert_of_changes`, `of_convert_ok`).  A step has four outcomes (`step_cases`): a merge ends
the run, a commit is sealed, a fatal error ends the run, and after any other error the commit
is set back.  A replay goes on with what a step leads to, as long as no step fails
(`replay_cons`, `replay_append`).

What is proved of replays elsewhere rests on these and not on the definitions.
-/
import TokenBlame.Proofs.Git.Chain
import TokenBlame.Proofs.Mining
import TokenBlame.Transcode

set_option autoImplicit false

namespace TokenBlame.Transcode

open Git

section Steps

variable {source source' : RevisionSource} {settings settings' : Settings}
  {service service' : Option CommentService} {destination staged next : Destination}
  {state last : State} {commit : SourceCommit} {wanted : List FileChange} {error : Error}

/-! ## The changes of a commit -/

/-- A path is removed where the source has no file, and written where it has one. -/
theorem change_eq_ok_iff {id path : String} {made : FileChange} :
    change source settings service id path = .ok made ↔
      source.read path id = .ok none ∧ made = .remove path ∨
        ∃ content, source.read path id = .ok (some content) ∧
          made = .write path (transform settings service path content) := by
  unfold change
  rcases source.read path id with error | none | content
  · simp
  · simp [eq_comm]
  · simp [eq_comm]

theorem path_of_change {id path : String} {made : FileChange}
    (own : change source settings service id path = .ok made) : made.path = path := by
  rcases change_eq_ok_iff.1 own with ⟨-, rfl⟩ | ⟨content, -, rfl⟩
  · rfl
  · rfl

/-- Where all paths are valid UTF-8 the changes are those of the paths. -/
theorem changes_of_readable (readable : commit.nonUtf8Paths = []) :
    changes source settings service commit =
      (Plan.paths commit).mapM (change source settings service commit.id) := by
  rw [changes, readable]

/-- The changes of a commit are those of its paths. -/
theorem mapM_of_changes (found : changes source settings service commit = .ok wanted) :
    (Plan.paths commit).mapM (change source settings service commit.id) = .ok wanted := by
  unfold changes at found
  split at found
  · cases found
  · exact found

/-- A commit has one change for each of its paths. -/
theorem map_path_of_changes (found : changes source settings service commit = .ok wanted) :
    wanted.map FileChange.path = Plan.paths commit := by
  have each := mapM_eq_ok_iff.1 (mapM_of_changes found)
  clear found
  generalize Plan.paths commit = paths at each
  induction each with
  | nil => rfl
  | cons own _ ih => rw [List.map_cons, path_of_change own, ih]

/-- No path is replayed twice. -/
theorem nodup_paths (commit : SourceCommit) : (Plan.paths commit).Nodup :=
  nodup_eraseDups _

/-- The changes of a commit are at its paths. -/
theorem path_mem_of_changes (found : changes source settings service commit = .ok wanted) :
    ∀ change ∈ wanted, change.path ∈ Plan.paths commit := fun _ member =>
  map_path_of_changes found ▸ List.mem_map_of_mem member

/-- Each change of a commit is that of its path. -/
theorem change_of_changes (found : changes source settings service commit = .ok wanted)
    {made : FileChange} (member : made ∈ wanted) :
    change source settings service commit.id made.path = .ok made := by
  obtain ⟨path, -, own⟩ := exists_of_mem_mapM (mapM_of_changes found) member
  rw [path_of_change own]
  exact own

/-- The change of a path brings it to its state at the commit. -/
theorem change_mem (found : changes source settings service commit = .ok wanted) {path : String}
    (member : path ∈ Plan.paths commit) :
    (source.read path commit.id = .ok none ∧ .remove path ∈ wanted) ∨
      ∃ content, source.read path commit.id = .ok (some content) ∧
        .write path (transform settings service path content) ∈ wanted := by
  rw [← map_path_of_changes found] at member
  obtain ⟨made, inside, rfl⟩ := List.mem_map.1 member
  rcases change_eq_ok_iff.1 (change_of_changes found inside) with
    ⟨gone, same⟩ | ⟨content, there, same⟩
  · exact Or.inl ⟨gone, same ▸ inside⟩
  · exact Or.inr ⟨content, there, same ▸ inside⟩

/-! ## One commit -/

theorem sealStaged_of_ok {id : ObjectId}
    (made : staged.commitIndex (Trailer.message commit.description commit.id) settings.identity
      commit.time commit.offsetMinutes = (.ok id, next)) :
    sealStaged settings staged commit = (.ok (), next) := by
  rw [sealStaged, made]

theorem sealStaged_of_error {fault : GitFault}
    (failed : staged.commitIndex (Trailer.message commit.description commit.id) settings.identity
      commit.time commit.offsetMinutes = (.error fault, next)) :
    sealStaged settings staged commit = (.error (.sealing commit.id fault), next) := by
  rw [sealStaged, failed]

/-- What is sealed was committed. -/
theorem of_sealStaged_ok (made : sealStaged settings staged commit = (.ok (), next)) :
    ∃ id, staged.commitIndex (Trailer.message commit.description commit.id) settings.identity
      commit.time commit.offsetMinutes = (.ok id, next) := by
  unfold sealStaged at made
  split at made
  · cases made
  · rename_i id _ done
    cases made
    exact ⟨id, done⟩

/-- A commit whose changes cannot be found leaves the destination as it is. -/
theorem convert_of_unreadable (unreadable : changes source settings service commit = .error error)
    (destination : Destination) :
    convert source settings service destination commit = (.error error, destination) := by
  rw [convert, unreadable]

/-- The changes of a commit are staged, and what is staged is sealed. -/
theorem convert_of_changes (found : changes source settings service commit = .ok wanted)
    (destination : Destination) :
    convert source settings service destination commit =
      match destination.stage wanted with
      | (.error error, next) => (.error error, next)
      | (.ok (), next) => sealStaged settings next commit := by
  rewrite [convert, found]
  rfl

theorem convert_of_unstaged (found : changes source settings service commit = .ok wanted)
    (put : destination.stage wanted = (.error error, next)) :
    convert source settings service destination commit = (.error error, next) := by
  rw [convert_of_changes found, put]

theorem convert_of_staged (found : changes source settings service commit = .ok wanted)
    (put : destination.stage wanted = (.ok (), staged)) :
    convert source settings service destination commit = sealStaged settings staged commit := by
  rw [convert_of_changes found, put]

/-- A commit that is replayed was staged and then sealed. -/
theorem of_convert_ok (converted : convert source settings service destination commit = (.ok (), next)) :
    ∃ wanted staged, changes source settings service commit = .ok wanted ∧
      destination.stage wanted = (.ok (), staged) ∧
      sealStaged settings staged commit = (.ok (), next) := by
  cases found : changes source settings service commit with
  | error error =>
      rw [convert_of_unreadable found] at converted
      cases converted
  | ok wanted =>
      rcases put : destination.stage wanted with ⟨error | done, staged⟩
      · rw [convert_of_unstaged found put] at converted
        cases converted
      · rw [convert_of_staged found put] at converted
        exact ⟨wanted, staged, rfl, put, converted⟩

/-! ## One step -/

/-- What setting a commit back comes to is what going back to HEAD does. -/
theorem setBack_of_reset {result : Except Error Unit}
    (reset : (state.record commit).destination.resetToHead = (result, destination)) :
    setBack state commit = (result, { state.record commit with destination }) := by
  rw [setBack]
  dsimp only
  rw [reset]

theorem step_of_merge (merge : commit.isMerge = true) (state : State) :
    step source settings service state commit =
      (.error (.mergeUnsupported commit.id commit.parents.length), state) := by
  rw [step, if_pos merge]

section Single

variable (single : commit.isMerge = false)
include single

theorem step_of_sealed
    (converted : convert source settings service state.destination commit = (.ok (), destination)) :
    step source settings service state commit = (.ok (), { state with destination }) := by
  rw [step, if_neg (ne_true_of_eq_false single), converted]

theorem step_of_fatal
    (failed : convert source settings service state.destination commit = (.error error, destination))
    (fatal : error.isFatal = true) :
    step source settings service state commit = (.error error, { state with destination }) := by
  rw [step, if_neg (ne_true_of_eq_false single), failed]
  exact if_pos fatal

theorem step_of_mild
    (failed : convert source settings service state.destination commit = (.error error, destination))
    (mild : error.isFatal = false) :
    step source settings service state commit = setBack { state with destination } commit := by
  rw [step, if_neg (ne_true_of_eq_false single), failed]
  exact if_neg (ne_true_of_eq_false mild)

end Single

/-- **What a step does**: it ends the run at a merge or a fatal error, it seals the commit, or
it sets it back. -/
theorem step_cases (source : RevisionSource) (settings : Settings)
    (service : Option CommentService) (state : State) (commit : SourceCommit) :
    (commit.isMerge = true ∧ step source settings service state commit =
      (.error (.mergeUnsupported commit.id commit.parents.length), state)) ∨
    commit.isMerge = false ∧
      ((∃ destination,
        convert source settings service state.destination commit = (.ok (), destination) ∧
        step source settings service state commit = (.ok (), { state with destination })) ∨
      ∃ error destination,
        convert source settings service state.destination commit = (.error error, destination) ∧
        (error.isFatal = true ∧
          step source settings service state commit = (.error error, { state with destination }) ∨
        error.isFatal = false ∧
          step source settings service state commit = setBack { state with destination } commit)) := by
  cases single : commit.isMerge with
  | true => exact Or.inl ⟨rfl, step_of_merge single state⟩
  | false =>
      refine Or.inr ⟨rfl, ?_⟩
      rcases converted : convert source settings service state.destination commit with
        ⟨error | done, destination⟩
      · refine Or.inr ⟨error, destination, rfl, ?_⟩
        cases fatal : error.isFatal with
        | true => exact Or.inl ⟨rfl, step_of_fatal single converted fatal⟩
        | false => exact Or.inr ⟨rfl, step_of_mild single converted fatal⟩
      · exact Or.inl ⟨destination, rfl, step_of_sealed single converted⟩

/-- A step asks the source for contents only.  Of the settings and the service it uses the form
in which files are replayed and the identity. -/
theorem step_congr (reads : source'.read = source.read)
    (forms : transform settings' service' = transform settings service)
    (identity : settings'.identity = settings.identity) :
    step source' settings' service' = step source settings service := by
  have same : change source' settings' service' = change source settings service := by
    funext id path
    unfold change
    rw [reads, forms]
  funext state commit
  unfold step convert changes sealStaged
  rw [same, identity]

/-! ## Many steps -/

section Many

variable {middle : State} {rest : List SourceCommit}

theorem replay_of_error (stepped : step source settings service state commit = (.error error, last))
    (rest : List SourceCommit) :
    replay source settings service state (commit :: rest) = (.error error, last) := by
  rw [replay, stepped]

theorem replay_of_ok (stepped : step source settings service state commit = (.ok (), middle))
    (rest : List SourceCommit) :
    replay source settings service state (commit :: rest) =
      replay source settings service middle rest := by
  rw [replay, stepped]

/-- A replay that does not fail goes on behind its first step. -/
theorem of_replay_ok
    (replayed : replay source settings service state (commit :: rest) = (.ok (), last)) :
    ∃ middle, step source settings service state commit = (.ok (), middle) ∧
      replay source settings service middle rest = (.ok (), last) := by
  rcases stepped : step source settings service state commit with ⟨error | done, middle⟩
  · rw [replay_of_error stepped] at replayed
    cases replayed
  · rw [replay_of_ok stepped] at replayed
    exact ⟨middle, rfl, replayed⟩

/-- A replay that fails does so at its first step or behind it. -/
theorem of_replay_error
    (replayed : replay source settings service state (commit :: rest) = (.error error, last)) :
    step source settings service state commit = (.error error, last) ∨
      ∃ middle, step source settings service state commit = (.ok (), middle) ∧
        replay source settings service middle rest = (.error error, last) := by
  rcases stepped : step source settings service state commit with ⟨failure | done, middle⟩
  · rw [replay_of_error stepped] at replayed
    exact Or.inl replayed
  · rw [replay_of_ok stepped] at replayed
    exact Or.inr ⟨middle, rfl, replayed⟩

/-- A replay goes on behind its front, unless that fails. -/
theorem replay_append (source : RevisionSource) (settings : Settings)
    (service : Option CommentService) (state : State) (front rest : List SourceCommit) :
    replay source settings service state (front ++ rest) =
      match replay source settings service state front with
      | (.error error, next) => (.error error, next)
      | (.ok (), next) => replay source settings service next rest := by
  induction front generalizing state with
  | nil => rfl
  | cons commit front ih =>
      rw [List.cons_append, replay, replay]
      split
      · rfl
      · exact ih _

/-- Replays whose steps are the same are the same. -/
theorem replay_congr (same : step source' settings' service' = step source settings service)
    (state : State) (todo : List SourceCommit) :
    replay source' settings' service' state todo = replay source settings service state todo := by
  induction todo generalizing state with
  | nil => rfl
  | cons commit todo ih =>
      rw [replay, replay, same]
      split
      · rfl
      · exact ih _

end Many

end Steps

end TokenBlame.Transcode
