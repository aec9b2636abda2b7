/-
# TokenBlame.Proofs.Transcode.Stored -- a run takes no commit away

Whatever a run replays, and whatever fails, the commits that were stored before stay stored,
and those that are new stand in front of their parents (`run_extends`).  That holds of paths
that lead into the repository's own directory as well: the branches may go there, but not the
commits.
-/
import TokenBlame.Proofs.Git.Extension
import TokenBlame.Proofs.Transcode.Accounts

set_option autoImplicit false

namespace TokenBlame.Transcode

open Git

section Stored

variable {source : RevisionSource} {settings : Settings} {service : Option CommentService}
  {destination : Destination} {commit : SourceCommit} {state : State}

/-- Replaying a commit extends the store. -/
theorem convert_extends (grown : Grown destination.repository.commits) :
    destination.repository.Extends
      (convert source settings service destination commit).2.repository := by
  have staged : ∀ wanted, destination.repository.Extends (destination.stage wanted).2.repository :=
    fun wanted => .of_eq grown (destination.commits_stage wanted)
  rcases convert_stages source settings service destination commit with
    ⟨wanted, made, parent, next, -, -, tip, replicates, converted, advanced⟩ |
    ⟨error, next, -, failed, rfl | ⟨wanted, -, same⟩⟩
  · rw [converted]
    have sealed := Repository.Extends.advance (staged wanted).grown tip replicates.parents
    exact ((staged wanted).trans sealed).trans
      (.of_eq sealed.grown (Repository.core_eq_iff.1 advanced).1)
  · rw [failed]
    exact .of_eq grown rfl
  · rw [failed]
    exact (staged wanted).trans (.of_eq (staged wanted).grown (Repository.core_eq_iff.1 same).1)

theorem step_extends (grown : Grown state.destination.repository.commits) :
    state.destination.repository.Extends
      (step source settings service state commit).2.destination.repository := by
  have converted := @convert_extends source settings service state.destination commit grown
  rcases step_cases source settings service state commit with
    ⟨-, stepped⟩ | ⟨-, ⟨next, sealed, stepped⟩ | ⟨error, next, failed, ⟨-, stepped⟩ | ⟨-, stepped⟩⟩⟩
  · rw [stepped]
    exact .of_eq grown rfl
  · rw [sealed] at converted
    rw [stepped]
    exact converted
  · rw [failed] at converted
    rw [stepped]
    exact converted
  · rw [failed] at converted
    obtain ⟨result, last, back, same, -, -⟩ :=
      setBack_records { state with destination := next } commit
    rw [stepped, back]
    exact converted.trans (.of_eq converted.grown (Repository.core_eq_iff.1 same).1)

theorem replay_extends {todo : List SourceCommit}
    (grown : Grown state.destination.repository.commits) :
    state.destination.repository.Extends
      (replay source settings service state todo).2.destination.repository := by
  induction todo generalizing state with
  | nil => exact .of_eq grown rfl
  | cons commit todo ih =>
      have first := @step_extends source settings service commit state grown
      rcases stepped : step source settings service state commit with ⟨error | done, next⟩
      · rw [stepped] at first
        rw [replay_of_error stepped]
        exact first
      · rw [stepped] at first
        rw [replay_of_ok stepped]
        exact first.trans (ih first.grown)

/-- **A run** extends the store, however it ends. -/
theorem run_extends (source : RevisionSource) (settings : Settings)
    (grown : Grown state.destination.repository.commits) :
    state.destination.repository.Extends
      (run source settings state).2.destination.repository := by
  rcases run_begins source settings state with
    ⟨error, idle⟩ | ⟨service, commits, completed, log, prepared, opens⟩
  · rw [idle]
    exact .of_eq grown rfl
  · rw [run_of_replay prepared opens rfl]
    exact @replay_extends source settings service { state with log } commits grown

end Stored

end TokenBlame.Transcode
