/-
# TokenBlame.Proofs.Transcode.Recalled -- the source commits that a destination recalls

A destination that runs have made is a chain of commits that name source commits
(`Recalls`), newest first.  What is pending can be told from these names alone
(`pending_of_recalls`), and a run puts the names of the commits that it seals in front of
them (`run_recalls`).

Whether a commit fails shows in the log: a run in which none does (`Unfailing`) seals all
that it sets out to replay.
-/
import TokenBlame.Proofs.Transcode.Accounts

set_option autoImplicit false

namespace TokenBlame.Transcode

open Git

/-- A chain of commits that name source commits, newest first. -/
def Recalls (repository : Repository) (made : List String) : Prop :=
  ∃ commits, Chain repository commits ∧ Destination.Names commits made

/-- The source commits that the history of a destination names, oldest first. -/
def sealedSources (destination : Destination) : List String :=
  destination.repository.history.filterMap fun commit => Trailer.source? commit.message

/-- The ids of the source commits that commits were made of. -/
def Fate.sealedIds (fates : List Fate) : List String :=
  (fates.filter fun fate => fate.made.isSome).map (·.commit.id)

/-- A source whose commits have the ids that they are known by, are told by their messages,
and change nothing inside the repository's own directory. -/
structure Legible (source : RevisionSource) : Prop where
  own : ∀ id commit, source.metadata id = .ok commit → commit.id = id
  traceable : ∀ id commit, source.metadata id = .ok commit → Traceable commit
  clear : ∀ id commit, source.metadata id = .ok commit → Clear commit

/-- No commit of a run fails: it comes to its end, and nothing is recorded. -/
def Unfailing (source : RevisionSource) (settings : Settings) (state : State) : Prop :=
  ∀ service commits completed log,
    prepare source settings state.destination = .ok (service, commits, completed) →
    state.log.start = .ok log →
    ∃ next, replay source settings service { state with log } commits = (.ok (), next) ∧
      next.log = log

section Recalls

variable {source : RevisionSource} {settings : Settings} {state before after : State}
  {made : List String} {fates : List Fate}

theorem recalls_create (workspace : Workspace) (home : TreePath) (bare : Bool) :
    Recalls (workspace.create home bare).repository [] :=
  ⟨[], Destination.chain_create workspace home bare, rfl⟩

theorem Recalls.of_core {a b : Repository} (same : b.core = a.core) (recalls : Recalls a made) :
    Recalls b made := by
  obtain ⟨commits, chain, names⟩ := recalls
  exact ⟨commits, chain.of_core same, names⟩

theorem Recalls.headSource {destination : Destination}
    (recalls : Recalls destination.repository made) : destination.headSource = .ok made.head? := by
  obtain ⟨commits, chain, names⟩ := recalls
  exact Destination.headSource_of_chain chain names

theorem Recalls.sealedSources {destination : Destination}
    (recalls : Recalls destination.repository made) : sealedSources destination = made.reverse := by
  obtain ⟨commits, chain, names⟩ := recalls
  unfold Transcode.sealedSources
  rw [chain.history, List.filterMap_reverse]
  have all : commits.filterMap (fun commit => Trailer.source? commit.message) = made := by
    calc commits.filterMap (fun commit => Trailer.source? commit.message)
        = (commits.map fun commit => Trailer.source? commit.message).filterMap id :=
          by rw [List.filterMap_map]; rfl
      _ = (made.map some).filterMap id := by rw [names]
      _ = made := by rw [List.filterMap_map]; exact List.filterMap_some
  rw [all]

/-- **What is pending** on a destination that recalls source commits. -/
theorem pending_of_recalls {destination : Destination}
    (recalls : Recalls destination.repository made) (distinct : made.Nodup) :
    pending source settings destination =
      match made.head? with
      | none => source.list ⟨settings.start, settings.stop⟩
      | some last =>
          (source.list ⟨.after last, settings.stop⟩).map
            (List.filter fun id => !made.contains id) := by
  obtain ⟨commits, chain, names⟩ := recalls
  exact pending_of_chain chain names distinct

/-- A commit that is made on top of a chain has a name of its own. -/
theorem fresh_of_admits {repository : Repository} {commits : List Commit} {newest : Commit}
    (chain : Chain repository commits)
    (parents : newest.parents = (commits.head?.map (·.id)).toList)
    (admits : repository.Admits newest) : ∀ other ∈ commits, other.id ≠ newest.id := by
  intro other member same
  obtain rfl := admits other (by rw [chain.commits_eq]; exact member) same
  obtain ⟨first, rest, rfl⟩ := List.exists_cons_of_ne_nil (List.ne_nil_of_mem member)
  -- it would stand in the chain, with the newest commit behind it
  exact chain.grown.childless member (by rw [parents]; exact List.mem_singleton_self _)

theorem Settled.recalls (settled : Settled settings before fates after)
    (traceable : ∀ fate ∈ fates, Traceable fate.commit)
    (recalls : Recalls before.destination.repository made) :
    Recalls after.destination.repository ((Fate.sealedIds fates).reverse ++ made) := by
  induction settled generalizing made with
  | done kept same => exact recalls.of_core kept
  | @step state middle next fate fates settles _ ih =>
      have later : ∀ made, Recalls middle.destination.repository made →
          Recalls next.destination.repository ((Fate.sealedIds fates).reverse ++ made) := fun made =>
        ih fun f member => traceable f (List.mem_cons_of_mem _ member)
      cases settles with
      | @sealed commit newest parent _ tip replicates admits advanced kept =>
          obtain ⟨commits, chain, names⟩ := recalls
          cases chain.tipCommit.symm.trans tip
          have longer := chain.advance replicates.parents
            (fresh_of_admits chain replicates.parents admits)
          have named := Destination.names_cons names
            (replicates.source? (traceable _ List.mem_cons_self))
          have all := later (commit.id :: made) ⟨_, longer.of_core advanced, named⟩
          have ids : Fate.sealedIds (⟨commit, some newest⟩ :: fates) =
              commit.id :: Fate.sealedIds fates := rfl
          rw [ids, List.reverse_cons, List.append_assoc]
          exact all
      | recorded kept added => exact later made (recalls.of_core kept)

/-- A text that stays the same had no line appended. -/
theorem unrecorded_of_same {commits : List SourceCommit} {text : String}
    (same : text ++ String.join (commits.map ErrorLog.line) = text) : commits = [] := by
  cases commits with
  | nil => rfl
  | cons commit others =>
      exfalso
      rw [List.map_cons, String.join_cons] at same
      have length := congrArg (fun s : String => s.toList.length) same
      simp [ErrorLog.line] at length

/-- Where nothing was recorded all commits were sealed. -/
theorem Settled.all_sealed (settled : Settled settings before fates after) {text : String}
    (old : before.log = .text text) (quiet : after.log = before.log) :
    Fate.sealedIds fates = fates.map (·.commit.id) := by
  have lines := settled.log old
  rw [quiet, old] at lines
  have none := unrecorded_of_same (ErrorLog.text.inj lines).symm
  unfold Fate.sealedIds
  rw [List.filter_eq_self.2]
  intro fate member
  by_contra failed
  have inside : fate.commit ∈ Fate.unsealed fates :=
    List.mem_map_of_mem (List.mem_filter.2 ⟨member, by simpa using failed⟩)
  rw [none] at inside
  exact List.not_mem_nil inside

/-- What is known of ids has these ids. -/
theorem Legible.ids (legible : Legible source) {ids : List String} {commits : List SourceCommit}
    (mined : ids.mapM source.metadata = .ok commits) : commits.map (·.id) = ids := by
  rw [mapM_eq_ok_iff] at mined
  induction mined with
  | nil => rfl
  | cons known _ ih => rw [List.map_cons, ih, legible.own _ _ known]

/-- The commits that a legible source knows are clear and traceable. -/
theorem Legible.of_mined (legible : Legible source) {ids : List String}
    {commits : List SourceCommit} (mined : ids.mapM source.metadata = .ok commits) :
    (∀ commit ∈ commits, Clear commit) ∧ ∀ commit ∈ commits, Traceable commit := by
  refine ⟨fun commit member => ?_, fun commit member => ?_⟩
  · obtain ⟨id, -, own⟩ := exists_of_mem_mapM mined member
    exact legible.clear id commit own
  · obtain ⟨id, -, own⟩ := exists_of_mem_mapM mined member
    exact legible.traceable id commit own

/-- **A run** puts the source commits that it seals in front of those that were sealed
before, unless it cannot begin.  They were pending; if no commit fails they are a front of
what was pending, and all of it if the end is reached. -/
theorem run_recalls (legible : Legible source) (unforged : RunUnforged source settings state)
    (recalls : Recalls state.destination.repository made) :
    (∃ error, run source settings state = (.error error, state)) ∨
    ∃ ids result next sealed, pending source settings state.destination = .ok ids ∧
      run source settings state = (result, next) ∧ sealed.Sublist ids ∧
      Recalls next.destination.repository (sealed.reverse ++ made) ∧
      (Unfailing source settings state → sealed <+: ids ∧ (result = .ok true → sealed = ids)) := by
  refine (run_begins source settings state).imp_right ?_
  rintro ⟨service, commits, completed, log, prepared, opens⟩
  obtain ⟨-, ids, found, ends, mined⟩ := prepare_eq_ok.1 prepared
  obtain ⟨clear, traceable⟩ := legible.of_mined mined
  obtain ⟨result, next, fates, rest, replayed, ran, rfl, settled, outcome⟩ :=
    run_settles clear unforged prepared opens
  have known : (limited settings.limit ids).1 = fates.map (·.commit.id) ++ rest.map (·.id) := by
    rw [← legible.ids mined, List.map_append, List.map_map]
    rfl
  have front := limited_isPrefix settings.limit ids
  refine ⟨ids, _, next, Fate.sealedIds fates, found, ran, ?_, ?_, ?_⟩
  · have begun := List.sublist_append_left (fates.map (·.commit.id)) (rest.map (·.id))
    rw [← known] at begun
    exact (List.filter_sublist.map _).trans (begun.trans front.sublist)
  · exact settled.recalls (fun fate member =>
      traceable _ (List.mem_append_left _ (List.mem_map_of_mem member))) recalls
  · intro unfailing
    obtain ⟨next', whole, quiet⟩ := unfailing service _ completed log prepared opens
    rw [replayed] at whole
    cases whole
    rcases outcome with ⟨-, rfl⟩ | ⟨error, same, -⟩
    · have all := settled.all_sealed (log_of_start opens) quiet
      rw [List.map_nil, List.append_nil, ← all] at known
      rw [← known]
      refine ⟨front, fun done => limited_eq_of_completed ?_⟩
      rw [ends]
      exact Except.ok.inj done
    · cases same

end Recalls

end TokenBlame.Transcode
