/-
# TokenBlame.Proofs.Transcode.Aborted -- what a run that ends with an error leaves behind

A run that ends with an error leaves the state as it was in front of the commit at which it
ended, but for one case: a commit that was staged and could not be sealed stays staged
(`State.Resting.step_error`).  Nothing tells the two states apart but what is staged in them
(`Abreast`).

So whether later runs take notice is up to the first commit that they replay.  If what it
changes leads to the same files with what was left staged and without it (`Replans`), they
seal the same commits (`aborted_runs_overlooked`).
-/
import TokenBlame.Proofs.Transcode.Branching
import TokenBlame.Proofs.Transcode.Twins

set_option autoImplicit false

namespace TokenBlame

open Git

/-! ## Destinations of one history -/

namespace Destination

variable {a b : Destination}

theorem headSource_of_core (core : b.repository.core = a.repository.core) :
    b.headSource = a.headSource := by
  unfold headSource
  rw [Repository.tipCommit_of_core core]

theorem mapping_of_core (core : b.repository.core = a.repository.core) :
    mapping b.repository = mapping a.repository := by
  unfold mapping messages
  rw [Repository.tipCommit_of_core core, Repository.history_of_core core]

end Destination

namespace Transcode

/-- What a run sets out to do depends on the history only. -/
theorem prepare_of_core {a b : Destination} (core : b.repository.core = a.repository.core)
    (source : RevisionSource) (settings : Settings) :
    prepare source settings b = prepare source settings a := by
  unfold prepare pending
  rw [Destination.headSource_of_core core, Destination.mapping_of_core core]

/-! ## Runs one after the other -/

/-- A source, and what a run is asked to do with it. -/
abbrev Job := RevisionSource × Settings

/-- Open the destination again. -/
def State.reopen (state : State) : State :=
  { state with destination := state.destination.reopen }

/-- Runs one after the other, each of which opens the destination again: what they come to, and
the state in the end. -/
def runAll (state : State) : List Job → List (Except Error Bool) × State
  | [] => ([], state)
  | (source, settings) :: rest =>
      let (result, next) := run source settings state.reopen
      let (results, last) := runAll next rest
      (result :: results, last)

/-- In each of these runs names tell the commits apart, and there is a way back wherever one
fails. -/
def Lasts (state : State) : List Job → Prop
  | [] => True
  | (source, settings) :: rest =>
      RunRecovers source settings state.reopen ∧ RunUnforged source settings state.reopen ∧
        Lasts (run source settings state.reopen).2 rest

/-! ## What the first commit of a run overlooks -/

/-- A run that ends before anything is staged. -/
def Idle (source : RevisionSource) (settings : Settings) (state : State) : Prop :=
  ∀ service commit rest completed,
    prepare source settings state.destination = .ok (service, commit :: rest, completed) →
    commit.isMerge = true ∨
      ∃ error, Unstageable source settings service commit error ∧ error.isFatal = true

/-- Changes are made to a snapshot with something left over as they are made without it:
whatever is left over, one of them is at its path.  Where a file is written, the permission
must be the same. -/
structure Replans (tree left : Snapshot) (changes : List FileChange) : Prop where
  takes : tree.TakesAll changes ↔ left.TakesAll changes
  elsewhere : ∀ place, (∀ change ∈ changes, TreePath.ofString change.path ≠ place) →
    left.get? place = tree.get? place
  permissions : ∀ path content, .write path content ∈ changes →
    Disk.isExecutable (left.view (TreePath.ofString path)) =
      Disk.isExecutable (tree.view (TreePath.ofString path))

/-- A run that begins with a commit that makes up for all that is left staged. -/
def MakesUp (source : RevisionSource) (settings : Settings) (state left : State) : Prop :=
  ∃ service commit rest completed,
    prepare source settings state.destination = .ok (service, commit :: rest, completed) ∧
    commit.isMerge = false ∧
    (∀ error, Unstageable source settings service commit error → error.isFatal = false) ∧
    ∀ wanted, changes source settings service commit = .ok wanted →
      FileChange.checkAll wanted = .ok () →
      Replans state.destination.index left.destination.index (FileChange.removalsFirst wanted)

/-- Runs that overlook what is left staged: those that end before anything is staged, and then
one that makes up for it. -/
inductive Overlooks (state left : State) : List Job → Prop where
  | none : Overlooks state left []
  | idle {source : RevisionSource} {settings : Settings} {rest : List Job} :
      Idle source settings state → Overlooks state left rest →
      Overlooks state left ((source, settings) :: rest)
  | makesUp {source : RevisionSource} {settings : Settings} {rest : List Job} :
      MakesUp source settings state left → RunRecovers source settings left →
      Lasts state ((source, settings) :: rest) →
      Overlooks state left ((source, settings) :: rest)

section Runs

variable {source : RevisionSource} {settings : Settings} {service : Option CommentService}
  {parent : Option Commit} {a b : State} {commit : SourceCommit} {jobs : List Job}

theorem meetsAt_of_replans {tree left : Snapshot}
    (replans : ∀ wanted, changes source settings service commit = .ok wanted →
      FileChange.checkAll wanted = .ok () →
      Replans tree left (FileChange.removalsFirst wanted)) :
    MeetsAt source settings service tree left commit := by
  intro wanted found checked
  obtain ⟨takes, elsewhere, permissions⟩ := replans wanted found checked
  have distinct : ((FileChange.removalsFirst wanted).map FileChange.path).Nodup :=
    Destination.nodup_removalsFirst (map_path_of_changes found ▸ nodup_paths commit)
  exact ⟨takes, fun _ => (Snapshot.changeAll_eq_iff distinct).2 ⟨elsewhere, permissions⟩⟩

/-! ## Runs of twins -/

theorem State.reopen_eq {state : State} (saved : state.destination.saved = state.destination.index) :
    state.reopen = state := by
  unfold State.reopen Destination.reopen
  rw [saved]

theorem Abreast.opened (abreast : Abreast parent a b) (log log' : ErrorLog) :
    Abreast parent { a with log } { b with log := log' } :=
  ⟨abreast.paired, abreast.saved, abreast.apart⟩

theorem SameLines.logs {a' b' : State} (lines : SameLines a a' b b') (logs : b.log = a.log) :
    b'.log = a'.log := by
  obtain ⟨commits, left, right⟩ := lines
  rw [left, right, logs]

/-- **No run** tells twins apart. -/
theorem Twins.run (twins : Twins parent a b) (logs : b.log = a.log)
    (recovers : RunRecovers source settings a) (unforged : RunUnforged source settings a) :
    ∃ result a' b' parent', Transcode.run source settings a = (result, a') ∧
      Transcode.run source settings b = (result, b') ∧ Twins parent' a' b' ∧ b'.log = a'.log := by
  have same := prepare_of_core twins.paired.alike.core source settings
  cases prepared : prepare source settings a.destination with
  | error error =>
      exact ⟨.error error, a, b, parent, run_of_prepare_error prepared,
        run_of_prepare_error (same.trans prepared), twins, logs⟩
  | ok plan =>
      obtain ⟨service, commits, completed⟩ := plan
      cases opens : a.log.start with
      | error error =>
          exact ⟨.error error, a, b, parent, run_of_blocked prepared opens,
            run_of_blocked (same.trans prepared) (logs ▸ opens), twins, logs⟩
      | ok log =>
          have opened : Twins parent { a with log } { b with log } :=
            ⟨twins.toAbreast.opened log log, twins.index⟩
          obtain ⟨result, a', b', parent', replayA, replayB, twins', lines, -⟩ :=
            opened.replay (recovers _ _ _ _ prepared opens) (unforged _ _ _ _ prepared opens)
          exact ⟨_, a', b', parent', run_of_replay prepared opens replayA,
            run_of_replay (same.trans prepared) (logs ▸ opens) replayB, twins', lines.logs rfl⟩

/-- **Runs** one after the other do not tell twins apart either. -/
theorem Twins.runAll (twins : Twins parent a b) (logs : b.log = a.log) (lasts : Lasts a jobs) :
    ∃ results a' b' parent', Transcode.runAll a jobs = (results, a') ∧
      Transcode.runAll b jobs = (results, b') ∧ Twins parent' a' b' ∧ b'.log = a'.log := by
  induction jobs generalizing a b parent with
  | nil => exact ⟨[], a, b, parent, rfl, rfl, twins, logs⟩
  | cons job jobs ih =>
      obtain ⟨source, settings⟩ := job
      obtain ⟨recovers, unforged, later⟩ := lasts
      unfold Transcode.runAll
      rw [State.reopen_eq twins.saved.1] at recovers unforged later ⊢
      rw [State.reopen_eq twins.saved.2]
      obtain ⟨result, a', b', parent', runA, runB, twins', logs'⟩ :=
        twins.run logs recovers unforged
      rw [runA] at later
      obtain ⟨results, a'', b'', parent'', allA, allB, twins'', logs''⟩ := ih twins' logs' later
      rw [runA, runB]
      dsimp only
      rw [allA, allB]
      exact ⟨_, a'', b'', parent'', rfl, rfl, twins'', logs''⟩

/-! ## Runs that overlook what is left staged -/

/-- A run that ends before anything is staged leaves both states as they are. -/
theorem Abreast.run_idle (abreast : Abreast parent a b) {text : String} (logA : a.log = .text text)
    (logB : b.log = .text text) (idle : Idle source settings a) :
    ∃ result, run source settings a = (result, a) ∧ run source settings b = (result, b) := by
  have same := prepare_of_core abreast.paired.alike.core source settings
  have opened : ∀ state : State, state.log = .text text →
      state.log.start = .ok (.text text) ∧ { state with log := .text text } = state := by
    intro state log
    rw [log]
    exact ⟨rfl, by rw [← log]⟩
  cases prepared : prepare source settings a.destination with
  | error error =>
      exact ⟨.error error, run_of_prepare_error prepared,
        run_of_prepare_error (same.trans prepared)⟩
  | ok plan =>
      obtain ⟨service, commits, completed⟩ := plan
      obtain ⟨result, ends⟩ : ∃ result, ∀ state : State,
          replay source settings service state commits = (result, state) := by
        cases commits with
        | nil => exact ⟨.ok (), fun state => rfl⟩
        | cons commit rest =>
            obtain ⟨error, stepped⟩ := step_endsRun (idle _ _ _ _ prepared)
            exact ⟨.error error, fun state => replay_of_error (stepped state) rest⟩
      obtain ⟨opensA, wholeA⟩ := opened a logA
      obtain ⟨opensB, wholeB⟩ := opened b logB
      exact ⟨_, run_of_replay prepared opensA (by rw [wholeA, ends a]),
        run_of_replay (same.trans prepared) opensB (by rw [wholeB, ends b])⟩

/-- **A run that makes up** for what is left staged leads to twins. -/
theorem Abreast.run_makesUp (abreast : Abreast parent a b) {text : String}
    (logA : a.log = .text text) (logB : b.log = .text text)
    (makesUp : MakesUp source settings a b)
    (recovers : RunRecovers source settings a) (recovers' : RunRecovers source settings b)
    (unforged : RunUnforged source settings a) :
    ∃ result a' b' parent', run source settings a = (result, a') ∧
      run source settings b = (result, b') ∧ Twins parent' a' b' ∧ b'.log = a'.log := by
  obtain ⟨service, commit, rest, completed, prepared, single, mild, replans⟩ := makesUp
  have prepared' : prepare source settings b.destination = .ok (service, commit :: rest, completed) :=
    (prepare_of_core abreast.paired.alike.core source settings).trans prepared
  have opensA : a.log.start = .ok (.text text) := by rw [logA]; rfl
  have opensB : b.log.start = .ok (.text text) := by rw [logB]; rfl
  obtain ⟨stages, leaves, later⟩ := recovers _ _ _ _ prepared opensA
  obtain ⟨-, leaves', -⟩ := recovers' _ _ _ _ prepared' opensB
  obtain ⟨admits, unforgedLater⟩ := unforged _ _ _ _ prepared opensA
  obtain ⟨result, a', b', parent', stepA, stepB, abreast', lines, -, index⟩ :=
    (abreast.opened (.text text) (.text text)).step stages (meetsAt_of_replans replans) leaves
      leaves' admits
  have twins : Twins parent' a' b' := ⟨abreast', index (Or.inr ⟨single, mild⟩)⟩
  suffices ∃ result a' b' parent', replay source settings service { a with log := .text text }
        (commit :: rest) = (result, a') ∧
      replay source settings service { b with log := .text text } (commit :: rest) = (result, b') ∧
      Twins parent' a' b' ∧ b'.log = a'.log by
    obtain ⟨result, a'', b'', parent'', replayA, replayB, twins', logs⟩ := this
    exact ⟨_, a'', b'', parent'', run_of_replay prepared opensA replayA,
      run_of_replay prepared' opensB replayB, twins', logs⟩
  cases result with
  | error error =>
      exact ⟨_, a', b', parent', replay_of_error stepA _, replay_of_error stepB _, twins,
        lines.logs rfl⟩
  | ok done =>
      obtain ⟨result, a'', b'', parent'', replayA, replayB, twins', lines', -⟩ :=
        twins.replay (later a' stepA) (unforgedLater a' stepA)
      exact ⟨result, a'', b'', parent'', (replay_of_ok stepA _).trans replayA,
        (replay_of_ok stepB _).trans replayB, twins', lines'.logs (lines.logs rfl)⟩

/-- **Runs that overlook** what is left staged come to the same, with the same commits. -/
theorem Abreast.runAll (abreast : Abreast parent a b) {text : String} (logA : a.log = .text text)
    (logB : b.log = .text text) (overlooks : Overlooks a b jobs) :
    (Transcode.runAll b jobs).1 = (Transcode.runAll a jobs).1 ∧
      Destination.Alike (Transcode.runAll a jobs).2.destination
        (Transcode.runAll b jobs).2.destination ∧
      (Transcode.runAll b jobs).2.log = (Transcode.runAll a jobs).2.log := by
  induction overlooks with
  | none => exact ⟨rfl, abreast.paired.alike, logB.trans logA.symm⟩
  | @idle source settings rest idle _ ih =>
      obtain ⟨result, runA, runB⟩ := abreast.run_idle logA logB idle
      unfold Transcode.runAll
      rw [State.reopen_eq abreast.saved.1, State.reopen_eq abreast.saved.2, runA, runB]
      exact ⟨congrArg (result :: ·) ih.1, ih.2⟩
  | @makesUp source settings rest makesUp recovers' lasts =>
      obtain ⟨recovers, unforged, later⟩ := lasts
      unfold Transcode.runAll
      rw [State.reopen_eq abreast.saved.1] at recovers unforged later ⊢
      rw [State.reopen_eq abreast.saved.2]
      obtain ⟨result, a', b', parent', runA, runB, twins, logs⟩ :=
        abreast.run_makesUp logA logB makesUp recovers recovers' unforged
      rw [runA] at later
      obtain ⟨results, a'', b'', parent'', allA, allB, twins', logs'⟩ := twins.runAll logs later
      rw [runA, runB]
      dsimp only
      rw [allA, allB]
      exact ⟨rfl, twins'.paired.alike, logs'⟩

end Runs

/-! ## Runs that end with an error -/

section Aborted

variable {source : RevisionSource} {settings : Settings} {service : Option CommentService}
  {parent : Option Commit} {state aborted : State} {commit : SourceCommit} {error : Error}

/-- What a commit that could not be sealed leaves staged in a state. -/
structure LeftStaged (source : RevisionSource) (settings : Settings)
    (service : Option CommentService) (state : State) (commit : SourceCommit) (error : Error)
    (left : State) : Prop where
  sealing : ∃ fault, error = .sealing commit.id fault
  index : ∃ wanted, changes source settings service commit = .ok wanted ∧
    left.destination.index =
      state.destination.index.changeAll (FileChange.removalsFirst wanted)
  log : left.log = state.log

/-- **A commit that ends a run** leaves the state as it is, or it was staged and could not be
sealed. -/
theorem State.Resting.step_error (resting : state.Resting parent)
    (stages : Stages source settings service state.destination commit)
    (leaves : LeavesNothing source settings service state.destination commit)
    (admits : ∀ made, replica? source settings service state.destination commit = some made →
      state.destination.repository.Admits made)
    (stepped : step source settings service state commit = (.error error, aborted)) :
    aborted = state ∨ Abreast parent state aborted ∧
      LeftStaged source settings service state commit error aborted := by
  rcases step_cases source settings service state commit with
    ⟨-, own⟩ | ⟨single, ⟨next, -, own⟩ | ⟨failure, next, converted, ⟨fatal, own⟩ | ⟨mild, -⟩⟩⟩
  · cases stepped.symm.trans own
    exact Or.inl rfl
  · cases stepped.symm.trans own
  swap
  · -- a commit that fails otherwise is recorded, and the run goes on
    obtain ⟨next', went, -⟩ := resting.step_failed stages leaves admits single converted mild
    cases stepped.symm.trans went
  cases stepped.symm.trans own
  by_cases well : ∀ error, ¬ Unstageable source settings service commit error
  swap
  · obtain ⟨error, unstageable⟩ : ∃ error, Unstageable source settings service commit error := by
      simpa using well
    cases converted.symm.trans (convert_unstageable unstageable _)
    exact Or.inl rfl
  obtain ⟨wanted, found, -⟩ := changes_of_stageable well
  have stageable : ∀ change ∈ wanted, state.destination.Stageable change.path :=
    fun change member => stages well _ (path_mem_of_changes found change member)
  by_cases takes : state.destination.index.TakesAll (FileChange.removalsFirst wanted)
  swap
  · -- staging that stops part-way is no fatal failure
    obtain ⟨_, _, _, stopped, mild, -⟩ := resting.sound.stage_stops stageable takes
    cases converted.symm.trans (convert_of_unstaged found stopped)
    rw [mild] at fatal
    cases fatal
  obtain ⟨staged, put, sound, alike, index, saved⟩ := resting.sound.stage stageable takes
  rw [convert_of_staged found put] at converted
  rcases sound.sealStaged settings commit with ⟨_, -, made⟩ | ⟨fault, -, failed⟩
  · cases converted.symm.trans made
  cases converted.symm.trans failed
  have stored : Destination.Alike state.destination staged.uncommitted :=
    ⟨alike.home, alike.bare, alike.core⟩
  exact Or.inr ⟨⟨⟨resting.sound, sound.stored rfl, stored⟩,
      ⟨resting.saved, saved.trans index.symm⟩, resting.apart, resting.apart.of_home stored.home⟩,
    ⟨fault, rfl⟩, ⟨wanted, found, index⟩, rfl⟩

/-- A replay that ends with an error ends at one of the commits. -/
theorem replay_error {commits : List SourceCommit}
    (replayed : replay source settings service state commits = (.error error, aborted)) :
    ∃ front commit rest before, commits = front ++ commit :: rest ∧
      replay source settings service state front = (.ok (), before) ∧
      step source settings service before commit = (.error error, aborted) := by
  induction commits generalizing state with
  | nil => cases replayed
  | cons first commits ih =>
      rcases of_replay_error replayed with stepped | ⟨next, stepped, replayed⟩
      · exact ⟨[], first, commits, state, rfl, rfl, stepped⟩
      · obtain ⟨front, commit, rest, before, whole, went, ended⟩ := ih replayed
        exact ⟨first :: front, commit, rest, before, congrArg (first :: ·) whole,
          (replay_of_ok stepped _).trans went, ended⟩

/-- **An aborted run** leaves no trace on later ones, as far as they overlook what it left
staged.  It ends in front of a commit, or it could not begin; what was sealed up to there is
kept.  If something is left staged, then it is the changes of that commit, which could not be
sealed.  With it and without it later runs come to the same, with the same commits and the same
lines in the log, provided that the first one to replay anything begins with a commit that
makes up for what was left. -/
theorem aborted_runs_overlooked (resting : state.Resting parent)
    (recovers : RunRecovers source settings state) (unforged : RunUnforged source settings state)
    (ran : run source settings state = (.error error, aborted)) :
    ∃ before parent', before.Resting parent' ∧
      (before = state ∧ aborted = state ∨
        ∃ service front commit rest completed log,
          prepare source settings state.destination =
            .ok (service, front ++ commit :: rest, completed) ∧
          state.log.start = .ok log ∧
          replay source settings service { state with log } front = (.ok (), before) ∧
          (aborted = before ∨ LeftStaged source settings service before commit error aborted)) ∧
      ∀ jobs, aborted = before ∨ Overlooks before aborted jobs →
        (runAll aborted jobs).1 = (runAll before jobs).1 ∧
        (runAll aborted jobs).2.destination.repository.core =
          (runAll before jobs).2.destination.repository.core ∧
        (runAll aborted jobs).2.destination.repository.history =
          (runAll before jobs).2.destination.repository.history ∧
        (runAll aborted jobs).2.log = (runAll before jobs).2.log := by
  rcases run_begins source settings state with
    ⟨own, idle⟩ | ⟨service, commits, completed, log, prepared, opens⟩
  · rw [idle] at ran
    cases ran
    refine ⟨state, parent, resting, Or.inl ⟨rfl, rfl⟩, fun jobs _ => ⟨rfl, rfl, rfl, rfl⟩⟩
  obtain ⟨result, last, replayed⟩ : ∃ result last,
      replay source settings service { state with log } commits = (result, last) := ⟨_, _, rfl⟩
  rw [run_of_replay prepared opens replayed] at ran
  obtain ⟨rfl, rfl⟩ : result = .error error ∧ last = aborted := by
    cases result with
    | ok done => cases ran
    | error own =>
        cases ran
        exact ⟨rfl, rfl⟩
  obtain ⟨front, commit, rest, before, rfl, went, ended⟩ := replay_error replayed
  obtain ⟨recoversFront, later⟩ := (recovers _ _ _ _ prepared opens).append
  obtain ⟨unforgedFront, unforgedLater⟩ := (unforged _ _ _ _ prepared opens).append
  obtain ⟨stages, leaves, -⟩ := later before went
  obtain ⟨admits, -⟩ := unforgedLater before went
  obtain ⟨parent', restingBefore, recorded, lines⟩ :=
    (resting.opened log).replay recoversFront unforgedFront went
  have text : before.log = .text (state.log.content?.getD "" ++
      String.join (recorded.map ErrorLog.line)) := by
    rw [lines, ← foldl_record, ← log_of_start opens]
  rcases restingBefore.step_error stages leaves admits ended with rfl | ⟨abreast, left⟩
  · exact ⟨last, parent', restingBefore, Or.inr ⟨service, front, commit, rest, completed, log,
      prepared, opens, went, Or.inl rfl⟩, fun jobs _ => ⟨rfl, rfl, rfl, rfl⟩⟩
  refine ⟨before, parent', restingBefore, Or.inr ⟨service, front, commit, rest, completed, log,
      prepared, opens, went, Or.inr left⟩, fun jobs overlooked => ?_⟩
  rcases overlooked with rfl | overlooks
  · exact ⟨rfl, rfl, rfl, rfl⟩
  obtain ⟨results, alike, logs⟩ := abreast.runAll text (left.log.trans text) overlooks
  exact ⟨results, alike.core, Repository.history_of_core alike.core, logs⟩

end Aborted

namespace Unsealed

/-- A name that no commit can have. -/
def nameless : Settings := { identity := { name := "<" } }

/-- A new destination, and what a run with that name leaves behind. -/
def state : State := newState OneFile.workspace OneFile.top .absent none
def aborted : State := (run OneFile.source nameless state).2

/-- The new destination with an open log. -/
def opened : State := { state with log := .text "" }

theorem fails : (match convert OneFile.source nameless none state.destination OneFile.commit with
    | (.error error, _) => error.isFatal
    | _ => false) = true := by
  decide +kernel

theorem prepared : prepare OneFile.source nameless state.destination =
    .ok (none, [OneFile.commit], true) := by
  unfold nameless
  rfl

theorem prepared_again : prepare OneFile.source {} state.destination =
    .ok (none, [OneFile.commit], true) := by
  rfl

theorem prepared_aborted : prepare OneFile.source {} aborted.destination =
    .ok (none, [OneFile.commit], true) := by
  rfl

theorem never_sealed {result : Except Error Unit} {next : Destination}
    (converted : convert OneFile.source nameless none state.destination OneFile.commit =
      (result, next)) : ∃ error, result = .error error ∧ error.isFatal = true := by
  have fails := fails
  rw [converted] at fails
  cases result with
  | ok done => cases fails
  | error error => exact ⟨error, rfl, fails⟩

theorem aborts : ∃ error, run OneFile.source nameless state = (.error error, aborted) := by
  have ended : (match (run OneFile.source nameless state).1 with
      | .error _ => true
      | _ => false) = true := by decide +kernel
  split at ended
  · rename_i error same
    exact ⟨error, Prod.ext same rfl⟩
  · cases ended

theorem seals :
    sealsNew OneFile.source {} none state.destination OneFile.commit = true ∧
      sealsNew OneFile.source {} none aborted.destination OneFile.commit = true ∧
      aborted.destination.top = OneFile.top ∧ aborted.log = .text "" := by
  decide +kernel

theorem stages {settings : Settings} {destination : Destination}
    (top : destination.top = OneFile.top) :
    Stages OneFile.source settings none destination OneFile.commit := by
  intro _ path member
  rw [List.mem_singleton.1 (show path ∈ ["a"] from member)]
  exact ⟨top ▸ ⟨by decide, by decide⟩, by decide⟩

/-- Where the only commit fails for good, or is sealed, there is a way back. -/
theorem recovers {settings : Settings} {state : State}
    (prepared : prepare OneFile.source settings state.destination =
      .ok (none, [OneFile.commit], true))
    (top : state.destination.top = OneFile.top)
    (ends : ∀ error next, convert OneFile.source settings none state.destination OneFile.commit =
      (.error error, next) → error.isFatal = true) :
    RunRecovers OneFile.source settings state := by
  intro service commits completed log same opens
  rw [prepared] at same
  cases same
  refine ⟨stages top, fun _ error next failed mild => ?_, fun _ _ => trivial⟩
  rw [ends error next failed] at mild
  cases mild

theorem recovers_of_seals {state : State}
    (prepared : prepare OneFile.source {} state.destination = .ok (none, [OneFile.commit], true))
    (top : state.destination.top = OneFile.top)
    (seals : sealsNew OneFile.source {} none state.destination OneFile.commit = true) :
    RunRecovers OneFile.source {} state := by
  obtain ⟨_, converted, -⟩ := convert_of_sealsNew seals
  refine recovers prepared top fun error next failed => ?_
  cases converted.symm.trans failed

theorem unforged {settings : Settings} {state : State}
    (prepared : prepare OneFile.source settings state.destination =
      .ok (none, [OneFile.commit], true))
    (admits : ∀ made, replica? OneFile.source settings none state.destination OneFile.commit =
      some made → state.destination.repository.Admits made) :
    RunUnforged OneFile.source settings state := by
  intro service commits completed log same opens
  rw [prepared] at same
  cases same
  exact ⟨admits, fun _ _ => trivial⟩

theorem clear : Clear OneFile.commit :=
  show ∀ path ∈ Plan.paths OneFile.commit, Destination.Outside path by decide

theorem changes_eq : changes OneFile.source nameless none OneFile.commit =
      .ok [.write "a" [0x78, 0x0A]] ∧
    changes OneFile.source {} none OneFile.commit = .ok [.write "a" [0x78, 0x0A]] := by
  decide +kernel

/-- The file that was left staged is written again. -/
theorem replans : Replans ∅ ((∅ : Snapshot).changeAll [.write "a" [0x78, 0x0A]])
    [.write "a" [0x78, 0x0A]] where
  takes := by
    refine iff_of_true ⟨fun _ _ found => (nomatch found), trivial⟩ ⟨?_, trivial⟩
    intro other entry found
    rcases Snapshot.get?_of_changeAll found with none | ⟨change, member, rfl⟩
    · cases none
    · rw [List.mem_singleton.1 member]
      exact ⟨by decide, by decide⟩
  elsewhere _ others := Snapshot.get?_changeAll_other others
  permissions path content member := by
    cases List.mem_singleton.1 member
    decide

/-- The commit that could not be sealed makes up for itself. -/
theorem overlooks {error : Error}
    (left : LeftStaged OneFile.source nameless none opened OneFile.commit error aborted) :
    Overlooks opened aborted [(OneFile.source, {})] := by
  obtain ⟨sealsFirst, sealsAborted, top, -⟩ := seals
  obtain ⟨wanted, found, index⟩ := left.index
  cases changes_eq.1.symm.trans found
  refine .makesUp ⟨none, OneFile.commit, [], true, prepared_again, rfl, ?_, ?_⟩
    (recovers_of_seals prepared_aborted top sealsAborted)
    ⟨recovers_of_seals prepared_again rfl sealsFirst,
      unforged prepared_again (admits_of_sealsNew clear sealsFirst), trivial⟩
  · intro error unstageable
    unfold Unstageable at unstageable
    rw [changes_eq.2] at unstageable
    cases unstageable
  · intro again found' _
    cases changes_eq.2.symm.trans found'
    rw [index]
    exact replans

end Unsealed

/-- After a run that could not seal the only commit, a run with a proper name makes the commit
that it makes in a new destination. -/
theorem unsealed_commit_overlooked :
    (run OneFile.source {} Unsealed.aborted.reopen).2.destination.repository.history =
      (run OneFile.source {} Unsealed.opened.reopen).2.destination.repository.history := by
  obtain ⟨error, aborts⟩ := Unsealed.aborts
  obtain ⟨-, -, -, log⟩ := Unsealed.seals
  have rests : Unsealed.state.Resting none := resting_newState rfl (by simp)
  obtain ⟨before, parent, -, origin, forgets⟩ :=
    aborted_runs_overlooked rests
      (Unsealed.recovers Unsealed.prepared rfl fun error next failed => by
        obtain ⟨_, same, fatal⟩ := Unsealed.never_sealed failed
        cases same
        exact fatal)
      (Unsealed.unforged Unsealed.prepared fun made => admits_of_fresh Unsealed.clear
        fun next converted => by
          obtain ⟨_, same, -⟩ := Unsealed.never_sealed converted
          cases same)
      aborts
  rcases origin with ⟨-, same⟩ | ⟨service, front, commit, rest, completed, own, prepared, opens,
    went, outcome⟩
  · rw [same] at log
    cases log
  rw [Unsealed.prepared] at prepared
  cases front with
  | cons first front => simp at prepared
  | nil =>
      cases prepared
      cases went
      cases opens
      exact (forgets [(OneFile.source, {})] (outcome.imp_right Unsealed.overlooks)).2.2.1

end Transcode

end TokenBlame
