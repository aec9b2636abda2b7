/-
# TokenBlame.Proofs.Transcode.Isolated -- a commit that fails leaves no trace

A commit that fails is recorded, and the destination goes back to HEAD.  What is there then
is a twin of what was there before (`State.Resting.step_failed`), so the commits behind it
are replayed as if it had not been among them: the run makes the same commits, and it has the
same lines in its log but for that of the commit that failed (`failures_isolated`).

Before the first commit is sealed there is nothing to go back to: the index is emptied, and
what was staged stays in the working tree, where it can be in the way of a later commit.  So
up to then a commit may fail only where it leaves nothing staged.
-/
import TokenBlame.Proofs.Transcode.Branching
import TokenBlame.Proofs.Transcode.Twins

set_option autoImplicit false

namespace TokenBlame.Transcode

open Git

section Isolated

variable {source without : RevisionSource} {settings : Settings} {state : State}
  {service : Option CommentService}

/-- A replay asks the source for contents only. -/
theorem replay_of_read (reads : without.read = source.read) (settings : Settings)
    (service : Option CommentService) (state : State) (todo : List SourceCommit) :
    replay without settings service state todo = replay source settings service state todo :=
  replay_congr (step_congr reads rfl rfl) state todo

/-- **A commit that fails leaves no trace.**  With it and without it, a run ends the same
way, with the same commits, branches and history.  Its log differs by the line of that
commit only. -/
theorem failures_isolated {parent : Option Commit} (resting : state.Resting parent)
    (reads : without.read = source.read) {front rest : List SourceCommit} {commit : SourceCommit}
    {completed completed' : Bool} {log : ErrorLog}
    (prepared : prepare source settings state.destination =
      .ok (service, front ++ commit :: rest, completed))
    (prepared' : prepare without settings state.destination =
      .ok (service, front ++ rest, completed'))
    (opens : state.log.start = .ok log)
    (recovers : RunRecovers source settings state) (unforged : RunUnforged source settings state)
    {middle : State}
    (reached : replay source settings service { state with log } front = (.ok (), middle))
    (single : commit.isMerge = false) {error : Error} {failed : Destination}
    (converted : convert source settings service middle.destination commit = (.error error, failed))
    (mild : error.isFatal = false) :
    ∃ (result : Except Error Unit) (full short : State) (before behind : String),
      run source settings state = (result.map fun _ => completed, full) ∧
      run without settings state = (result.map fun _ => completed', short) ∧
      full.destination.repository.core = short.destination.repository.core ∧
      full.destination.repository.history = short.destination.repository.history ∧
      middle.log = .text before ∧ short.log = .text (before ++ behind) ∧
      full.log = .text (before ++ ErrorLog.line commit ++ behind) := by
  obtain ⟨recovers', later⟩ := (recovers _ _ _ _ prepared opens).append
  obtain ⟨stages, leaves, recoversRest⟩ := later middle reached
  obtain ⟨unforged', unforgedLater⟩ := (unforged _ _ _ _ prepared opens).append
  obtain ⟨admits, unforgedRest⟩ := unforgedLater middle reached
  obtain ⟨parent', restingMiddle, recorded, lines⟩ :=
    (resting.opened log).replay recovers' unforged' reached
  obtain ⟨next, stepped, twins, line⟩ :=
    restingMiddle.step_failed stages leaves admits single converted mild
  -- what follows is replayed by twins: one behind the failed commit, one in front of it
  obtain ⟨result, full, short, parent'', replayFull, replayShort, twins', ⟨more, moreFull, moreShort⟩,
    -⟩ := twins.symm.replay (recoversRest next stepped) (unforgedRest next stepped)
  have core := twins'.paired.alike.core.symm
  have opened : log = .text (state.log.content?.getD "") := log_of_start opens
  have before : middle.log = .text (state.log.content?.getD "" ++
      String.join (recorded.map ErrorLog.line)) := by
    rw [lines, ← foldl_record, ← opened]
  refine ⟨result, full, short, _, String.join (more.map ErrorLog.line), ?_, ?_, core,
    Repository.history_of_core core, before, ?_, ?_⟩
  · apply run_of_replay prepared opens
    rw [replay_append, reached]
    dsimp only
    rw [replay_of_ok stepped]
    exact replayFull
  · apply run_of_replay prepared' opens
    rw [replay_of_read reads, replay_append, reached]
    exact replayShort
  · rw [moreShort, before, foldl_record]
  · rw [moreFull, line, before]
    exact foldl_record more _

end Isolated

namespace BrokenOff

/-- The ids of the second and the third commit. -/
def brokenId : String := String.ofList (List.replicate 40 '6')
def lateId : String := String.ofList (List.replicate 40 '7')

/-- A commit that adds a file and then one below it. -/
def broken : SourceCommit :=
  { OneFile.commit with id := brokenId, parents := [OneFile.onlyId], touched := ["a", "a/b"] }

/-- A commit that adds the second of these only. -/
def late : SourceCommit :=
  { OneFile.commit with id := lateId, parents := [brokenId], touched := ["a/b"] }

/-- A source in which the first commit has no files. -/
def source (listed : List String) : RevisionSource where
  list _ := .ok listed
  metadata id :=
    .ok (if id = OneFile.onlyId then OneFile.commit else if id = brokenId then broken else late)
  read _ id := .ok (if id = OneFile.onlyId then none else some [0x78])

/-- A new destination. -/
def state : State := newState OneFile.workspace OneFile.top .absent none

/-- The state when the first commit was replayed, and when the second one has failed. -/
def opened : State := { state with log := .text "" }
def first : State := (step (source []) {} none opened OneFile.commit).2
def second : State := (step (source []) {} none first broken).2

theorem first_made : (step (source []) {} none opened OneFile.commit).1 = .ok () ∧
    sealsNew (source []) {} none opened.destination OneFile.commit = true ∧
    first.destination.top = OneFile.top ∧ first.destination.repository.tipCommit ≠ .ok none := by
  decide +kernel

theorem second_fails : (match convert (source []) {} none first.destination broken with
    | (.error error, _) => !error.isFatal
    | _ => false) = true := by
  decide +kernel

theorem second_recorded : (step (source []) {} none first broken).1 = .ok () ∧
    sealsNew (source []) {} none second.destination late = true ∧
    second.destination.top = OneFile.top := by
  decide +kernel

theorem clear : Clear OneFile.commit ∧ Clear broken ∧ Clear late :=
  show (∀ path ∈ Plan.paths OneFile.commit, Destination.Outside path) ∧
    (∀ path ∈ Plan.paths broken, Destination.Outside path) ∧
    ∀ path ∈ Plan.paths late, Destination.Outside path by decide

theorem next_first {next : State}
    (stepped : step (source []) {} none opened OneFile.commit = (.ok (), next)) : next = first := by
  rw [first, stepped]

theorem next_second {next : State}
    (stepped : step (source []) {} none first broken = (.ok (), next)) : next = second := by
  rw [second, stepped]

theorem replayed_first :
    replay (source []) {} none opened [OneFile.commit] = (.ok (), first) := by
  have stepped : step (source []) {} none opened OneFile.commit = (.ok (), first) :=
    Prod.ext first_made.1 rfl
  rw [replay, stepped]
  rfl

/-- The paths of all three commits can be staged. -/
theorem stages {destination : Destination} (top : destination.top = OneFile.top)
    {commit : SourceCommit} (paths : ∀ path ∈ Plan.paths commit, path = "a" ∨ path = "a/b") :
    Stages (source []) {} none destination commit := by
  intro _ path member
  refine ⟨top ▸ ?_, ?_⟩
  · rcases paths path member with rfl | rfl <;> exact ⟨by decide, by decide⟩
  · rcases paths path member with rfl | rfl <;> decide

theorem leavesNothing {destination : Destination} {commit : SourceCommit}
    (seals : sealsNew (source []) {} none destination commit = true) :
    LeavesNothing (source []) {} none destination commit := by
  intro _ error next failed
  obtain ⟨_, converted, -⟩ := convert_of_sealsNew seals
  cases failed.symm.trans converted

theorem recovers :
    Recovers (source []) {} none opened [OneFile.commit, broken, late] := by
  obtain ⟨-, seals, top, born⟩ := first_made
  obtain ⟨-, sealsLate, topLate⟩ := second_recorded
  refine ⟨stages rfl (by decide), leavesNothing seals, fun next stepped => ?_⟩
  rw [next_first stepped]
  refine ⟨stages top (by decide), fun unborn => absurd unborn born, fun next stepped => ?_⟩
  rw [next_second stepped]
  exact ⟨stages topLate (by decide), leavesNothing sealsLate, fun _ _ => trivial⟩

theorem unforged :
    Unforged (source []) {} none opened [OneFile.commit, broken, late] := by
  obtain ⟨clearFirst, clearBroken, clearLate⟩ := clear
  refine ⟨admits_of_sealsNew clearFirst first_made.2.1, fun next stepped => ?_⟩
  rw [next_first stepped]
  have fails := second_fails
  refine ⟨fun made => admits_of_fresh clearBroken fun _ converted => ?_, fun next stepped => ?_⟩
  · rw [converted] at fails
    cases fails
  rw [next_second stepped]
  exact ⟨admits_of_sealsNew clearLate second_recorded.2.1, fun _ _ => trivial⟩

end BrokenOff

/-- A run in which the second of three commits fails seals what it does without that commit. -/
theorem broken_commit_isolated :
    let full := (run (BrokenOff.source [OneFile.onlyId, BrokenOff.brokenId, BrokenOff.lateId]) {}
      BrokenOff.state).2
    let short := (run (BrokenOff.source [OneFile.onlyId, BrokenOff.lateId]) {} BrokenOff.state).2
    full.destination.repository.history = short.destination.repository.history ∧
      ∃ before behind, short.log = .text (before ++ behind) ∧
        full.log = .text (before ++ ErrorLog.line BrokenOff.broken ++ behind) := by
  have fails := BrokenOff.second_fails
  split at fails
  swap
  · cases fails
  rename_i error failed converted
  obtain ⟨result, full, short, before, behind, ranFull, ranShort, -, history, -, logShort, logFull⟩ :=
    @failures_isolated (BrokenOff.source [OneFile.onlyId, BrokenOff.brokenId, BrokenOff.lateId])
      (BrokenOff.source [OneFile.onlyId, BrokenOff.lateId]) {} BrokenOff.state none none
      (resting_newState rfl (by simp)) rfl [OneFile.commit] [BrokenOff.late] BrokenOff.broken
      true true (.text "") rfl rfl rfl
      (by
        intro service commits completed log prepared opens
        cases prepared
        cases opens
        exact BrokenOff.recovers)
      (by
        intro service commits completed log prepared opens
        cases prepared
        cases opens
        exact BrokenOff.unforged)
      BrokenOff.first
      ((replay_of_read rfl _ _ _ _).trans BrokenOff.replayed_first)
      rfl error failed converted (by simpa using fails)
  rw [ranFull, ranShort]
  exact ⟨history, before, behind, logShort, logFull⟩

end TokenBlame.Transcode
