/-
# TokenBlame.Proofs.Transcode.Mined -- a run whose commits are mined by several workers

A run asks for its commits in chunks.  `runWith` is the run with any way of mining them, and the
run itself mines one chunk after the other (`run_eq_runWith`).  Whichever way several workers go
through the chunks, the run replays the same commits, or it ends with the failure of one of them
before anything is written (`mined_by_any_crew`).
-/
import TokenBlame.Proofs.Mining.Crew
import TokenBlame.Proofs.Transcode.Pending
import TokenBlame.Proofs.Transcode.Reached

set_option autoImplicit false

namespace TokenBlame.Transcode

open Mining

/-- A run that mines its commits in some way. -/
def runWith (mine : List String → Except Error (List SourceCommit)) (source : RevisionSource)
    (settings : Settings) (state : State) : Except Error Bool × State :=
  let prepared : Except Error (Option CommentService × List SourceCommit × Bool) := do
    let service ← serviceOf settings
    let ids ← pending source settings state.destination
    let commits ← mine (limited settings.limit ids).1
    return (service, commits, (limited settings.limit ids).2)
  match prepared with
  | .error error => (.error error, state)
  | .ok (service, commits, completed) =>
      match state.log.start with
      | .error error => (.error error, state)
      | .ok log =>
          match replay source settings service { state with log } commits with
          | (.error error, next) => (.error error, next)
          | (.ok (), next) => (.ok completed, next)

section Mined

variable {source : RevisionSource} {settings : Settings} {state : State}

/-- A run mines one chunk after the other. -/
theorem run_eq_runWith :
    run source settings state = runWith (mine source) source settings state := by
  have same : prepare source settings state.destination = (do
      let service ← serviceOf settings
      let ids ← pending source settings state.destination
      let commits ← mine source (limited settings.limit ids).1
      return (service, commits, (limited settings.limit ids).2)) := by
    rw [prepare_eq, planned]
    simp only [bind_assoc, pure_bind]
  unfold run
  rw [same]
  rfl

/-- Two ways of mining that agree on what is pending give the same run. -/
theorem runWith_congr {mine mine' : List String → Except Error (List SourceCommit)}
    (same : ∀ ids, pending source settings state.destination = .ok ids →
      mine (limited settings.limit ids).1 = mine' (limited settings.limit ids).1) :
    runWith mine source settings state = runWith mine' source settings state := by
  unfold runWith
  cases listed : pending source settings state.destination with
  | error error => rfl
  | ok ids =>
      have own := same ids listed
      simp only [bind, Except.bind] at own ⊢
      rw [own]

/-- A run whose mining fails leaves everything as it is. -/
theorem runWith_unmined {mine : List String → Except Error (List SourceCommit)}
    {service : Option CommentService} {ids : List String} {error : Error}
    (served : serviceOf settings = .ok service)
    (listed : pending source settings state.destination = .ok ids)
    (failed : mine (limited settings.limit ids).1 = .error error) :
    runWith mine source settings state = (.error error, state) := by
  unfold runWith
  simp only [served, listed, failed, bind, Except.bind]

end Mined

/-- **Several workers mine the commits of a run.**  However they go through the chunks, they come to
an end: there is a next step until it is over, and each step leaves less to be done.  What they
have then is what the commits give one by one.  The run with it is the run that mines one chunk
after the other, or mining has failed, and the run ends with that and leaves the destination and
the error log as they were. -/
theorem mined_by_any_crew {source : RevisionSource} {workers : Nat} {ids : List String}
    {crew : Crew} (reached : Mining.Reached source workers ids crew) :
    (crew.Over ∨ ∃ next, Step source crew next) ∧
      (∀ next, Step source crew next → next.work < crew.work) ∧
      (crew.Over → Mines source ids crew.outcome ∧
        ∀ (settings : Settings) (state : State) (service : Option CommentService)
          (listed : List String) (mined : List String → Except Error (List SourceCommit)),
          serviceOf settings = .ok service →
          pending source settings state.destination = .ok listed →
          (limited settings.limit listed).1 = ids → mined ids = crew.outcome →
          (∀ commits, crew.outcome = .ok commits →
            runWith mined source settings state = run source settings state) ∧
          ∀ error, crew.outcome = .error error →
            runWith mined source settings state = (.error error, state)) := by
  refine ⟨reached.kept.progress, fun next step => work_step step, fun isOver => ?_⟩
  have mines := reached.kept.mines isOver
  refine ⟨mines, ?_⟩
  rintro settings state service listed mined served own rfl same
  constructor
  · intro commits done
    rw [run_eq_runWith]
    apply runWith_congr
    intro ids listed'
    rw [own] at listed'
    cases listed'
    rw [same, done, eq_comm, mine_eq_ok_iff, mapM_eq_ok_iff]
    exact mines.inOrder commits done
  · intro error failed
    exact runWith_unmined served own (same.trans failed)

namespace TwoChunks

/-- The commits of a chunk, and one more. -/
def ids : List String :=
  List.replicate chunkSize "a" ++ ["b"]

def failure : Error := .internal "b"

/-- A source that does not know the last commit. -/
def source : RevisionSource where
  list _ := .ok ids
  metadata id := if id = "b" then .error failure else .ok OneFile.commit
  read _ _ := .ok none

/-- The first chunk is still waiting when the second one fails. -/
def crew : Crew where
  idle := 2
  chunks := [.waiting (List.replicate chunkSize "a"), .stopped failure]
  finished := [1]

theorem chunks_eq : Pieces.chunksOf chunkSize ids = [List.replicate chunkSize "a", ["b"]] := by
  decide +kernel

theorem reached : Mining.Reached source 2 ids crew := by
  have first : Step source (Crew.start 2 ids)
      ⟨1, [.waiting (List.replicate chunkSize "a"), .asking [] ["b"]], []⟩ := by
    rw [Crew.start, chunks_eq]
    exact @Step.takes source 1 [.waiting (List.replicate chunkSize "a")] [] [] ["b"]
  have failed : source.metadata "b" = .error failure := rfl
  have second := @Step.closes source 1 [.waiting (List.replicate chunkSize "a")] [] [] _ _
    (.fails [] [] failed)
  exact .tail (.single first) second

theorem outcome_eq : crew.outcome = .error failure := rfl

theorem isOver : crew.Over := by
  refine ⟨?_, Or.inl ⟨failure, outcome_eq⟩⟩
  decide

theorem pending_eq : pending source {} OneFile.state.destination = .ok ids := rfl

end TwoChunks

/-- The last of many commits fails, in a chunk of its own, before the first chunk is begun. -/
theorem two_chunks_fail :
    Mines TwoChunks.source TwoChunks.ids (.error TwoChunks.failure) ∧
      runWith (fun _ => TwoChunks.crew.outcome) TwoChunks.source {} OneFile.state =
        (.error TwoChunks.failure, OneFile.state) := by
  obtain ⟨mines, replayed⟩ := (mined_by_any_crew TwoChunks.reached).2.2 TwoChunks.isOver
  have ended := replayed {} OneFile.state none TwoChunks.ids (fun _ => TwoChunks.crew.outcome) rfl
    TwoChunks.pending_eq rfl rfl
  exact ⟨mines, ended.2 TwoChunks.failure TwoChunks.outcome_eq⟩

end TokenBlame.Transcode
