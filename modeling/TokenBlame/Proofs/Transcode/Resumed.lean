/-
# TokenBlame.Proofs.Transcode.Resumed -- runs that take up where others left off

Between two runs everything is known from one point: that behind the newest commit
(`Anchored`).  What was passed over since then is passed over again by the next run.  So a
run goes on along the course of a single run over all commits (`run_resumes`), wherever the
runs before it have stopped.

`resumed_runs_equal_single` puts it together: after every run the history is a beginning of
that of a single run, and it is the same once the end was reached.
-/
import TokenBlame.Proofs.Transcode.Course
import TokenBlame.Proofs.Transcode.Reached

set_option autoImplicit false

namespace TokenBlame.Transcode

open Git

/-! ## One sequence of commits -/

/-- Commits with different ids that the source knows by them. -/
structure Sequential (source : RevisionSource) (commits : List SourceCommit) : Prop where
  distinct : (commits.map (·.id)).Nodup
  known : ∀ commit ∈ commits, source.metadata commit.id = .ok commit
  traceable : ∀ commit ∈ commits, Traceable commit

/-- Up to a range end the source lists the first `count` commits, or what of these lies
behind the one that it is asked to begin at. -/
structure EndsAt (source : RevisionSource) (start : RangeStart) (commits : List SourceCommit)
    (stop : String) (count : Nat) : Prop where
  fromStart : source.list ⟨start, stop⟩ = .ok ((commits.take count).map (·.id))
  behind : ∀ k commit, commits[k]? = some commit →
    source.list ⟨.after commit.id, stop⟩ = .ok (((commits.take count).drop (k + 1)).map (·.id))

/-! ## Between two runs -/

section Anchored

variable {source : RevisionSource} {base : Settings} {service : Option CommentService}
  {top : TreePath} {commits front rest part later skipped : List SourceCommit}
  {final : List Commit} {point current : Point} {state : State}

/-- The point behind the newest commit: what was sealed is in front of it, and the rest is
still to be replayed. -/
structure Anchored (top : TreePath) (source : RevisionSource) (base : Settings)
    (service : Option CommentService) (final : List Commit) (front rest : List SourceCommit)
    (point : Point) : Prop where
  course : Course top source base service point rest final
  last : point.made.head? = front.getLast?.map (·.id)
  known : ∀ id ∈ point.made, id ∈ front.map (·.id)
  distinct : point.made.Nodup

/-- A state at a point, or one whose working tree was restored there, since the next commit
had been passed over. -/
def Rests (top : TreePath) (source : RevisionSource) (base : Settings)
    (service : Option CommentService) (state : State) (point : Point)
    (rest : List SourceCommit) : Prop :=
  state.On top point ∨ state.On top point.restored ∧
    ∃ commit, rest.head? = some commit ∧ PassedOver source base service commit

theorem Rests.chain (rests : Rests top source base service state point rest)
    (atHead : point.AtHead top) : Chain state.destination.repository point.commits := by
  rcases rests with on | ⟨on, -⟩
  · exact on.chain atHead
  · exact on.chain atHead.restored

/-- What is pending at a point is the rest, up to the range end. -/
theorem Anchored.pending (anchored : Anchored top source base service final front rest point)
    (chain : Chain state.destination.repository point.commits)
    (distinct : ((front ++ rest).map (·.id)).Nodup) {stop : String} {count : Nat}
    (ends : EndsAt source base.start (front ++ rest) stop count) (limit : Option Nat) :
    Transcode.pending source { base with limit, stop } state.destination =
      .ok ((rest.take (count - front.length)).map (·.id)) := by
  rw [pending_of_chain chain anchored.course.atHead.names anchored.distinct, anchored.last]
  rcases List.eq_nil_or_concat' front with rfl | ⟨before, newest, rfl⟩
  · exact ends.fromStart
  · have here : (before ++ [newest] ++ rest)[before.length]? = some newest := by simp
    have listed := ends.behind _ _ here
    have apart : ∀ id ∈ rest.map (·.id), id ∉ point.made := by
      intro id member made
      rw [List.map_append, List.nodup_append] at distinct
      exact distinct.2.2 id (anchored.known id made) id member rfl
    have whole : (before ++ [newest] ++ rest).drop (before.length + 1) = rest := by
      rw [List.drop_append_of_le_length (by simp)]
      simp
    simp only [List.getLast?_append, List.getLast?_singleton, Option.some_or, Option.map_some]
    rw [listed, List.drop_take, whole]
    show Except.ok _ = Except.ok _
    rw [List.length_append, List.length_singleton, List.filter_eq_self.2]
    intro id member
    have inside := List.map_subset _ (List.take_subset _ _) member
    simpa using apart id inside

/-- The next commit is replayed at a point, or where the point was restored, since the first
commit behind it was passed over. -/
def Tied (source : RevisionSource) (base : Settings) (service : Option CommentService)
    (point current : Point) (skipped rest : List SourceCommit) : Prop :=
  skipped = [] ∧ current = point ∨ current = point.restored ∧
    ∃ commit, (skipped ++ rest).head? = some commit ∧ PassedOver source base service commit

theorem Tied.same (tied : Tied source base service point current skipped rest) :
    current.commits = point.commits ∧ current.made = point.made := by
  rcases tied with ⟨-, rfl⟩ | ⟨rfl, -⟩
  · exact ⟨rfl, rfl⟩
  · exact ⟨rfl, rfl⟩

theorem Tied.rests (tied : Tied source base service point current skipped rest)
    (on : state.On top current) : Rests top source base service state point (skipped ++ rest) := by
  rcases tied with ⟨-, rfl⟩ | ⟨rfl, passes⟩
  · exact Or.inl on
  · exact Or.inr ⟨on, passes⟩

/-- One more commit that is passed over restores the point. -/
theorem Tied.passed {commit : SourceCommit}
    (tied : Tied source base service point current skipped (commit :: rest))
    (passes : PassedOver source base service commit) :
    Tied source base service point current.restored (skipped ++ [commit]) rest := by
  have moved : skipped ++ [commit] ++ rest = skipped ++ commit :: rest := by simp
  rcases tied with ⟨rfl, rfl⟩ | ⟨rfl, first⟩
  · exact Or.inr ⟨rfl, commit, rfl, passes⟩
  · exact Or.inr ⟨rfl, moved ▸ first⟩

/-- A commit that is sealed is the newest one of the next point. -/
theorem Anchored.sealed {commit : SourceCommit} {sealedAt : Point}
    (anchored : Anchored top source base service final front (skipped ++ commit :: rest) point)
    (course : Course top source base service sealedAt rest final)
    (made : sealedAt.made = commit.id :: point.made)
    (distinct : ((front ++ (skipped ++ commit :: rest)).map (·.id)).Nodup) :
    Anchored top source base service final (front ++ skipped ++ [commit]) rest sealedAt where
  course := course
  last := by
    rw [made]
    simp
  known := by
    intro id member
    rw [made] at member
    rcases List.mem_cons.1 member with rfl | before
    · simp
    · have inside := anchored.known id before
      simp only [List.map_append, List.mem_append]
      exact Or.inl (Or.inl inside)
  distinct := by
    rw [made, List.nodup_cons]
    refine ⟨fun before => ?_, anchored.distinct⟩
    have inside := anchored.known _ before
    rw [List.map_append, List.nodup_append] at distinct
    exact distinct.2.2 _ inside commit.id (by simp) rfl

/-- The commits that are made by going on along a course are sealed as the course says,
and the next run can go on from there. -/
theorem replay_resumes (anchored : Anchored top source base service final front
      (skipped ++ (part ++ later)) point)
    (course : Course top source base service current (part ++ later) final)
    (on : state.On top current)
    (tied : Tied source base service point current skipped (part ++ later))
    (distinct : ((front ++ (skipped ++ (part ++ later))).map (·.id)).Nodup) :
    ∃ result next front' rest' point',
      replay source base service state part = (result, next) ∧
        front ++ (skipped ++ (part ++ later)) = front' ++ rest' ∧
        Anchored top source base service final front' rest' point' ∧
        Rests top source base service next point' rest' ∧
        point.commits <:+ point'.commits ∧ (later = [] → point'.commits = final) := by
  -- the point moves with each commit that is sealed, and stays behind those passed over since
  induction part generalizing state front skipped point current with
  | nil =>
      refine ⟨.ok (), state, front, _, point, rfl, rfl, anchored, tied.rests on,
        List.suffix_refl _, ?_⟩
      rintro rfl
      cases course
      exact tied.same.1.symm
  | cons commit part ih =>
      rw [List.cons_append] at course
      cases course with
      | ended atHead ends =>
          obtain ⟨error, stepped⟩ := step_endsRun ends
          exact ⟨.error error, state, front, _, point, replay_of_error (stepped state) _, rfl,
            anchored, tied.rests on, List.suffix_refl _, fun _ => tied.same.1.symm⟩
      | passed atHead passes course =>
          obtain ⟨next, stepped, on'⟩ := step_passedOver atHead on passes
          have moved : skipped ++ (commit :: part ++ later) =
              skipped ++ [commit] ++ (part ++ later) := by simp
          rw [moved] at anchored distinct ⊢
          obtain ⟨result, last, front', rest', point', replayed, whole⟩ :=
            ih anchored course on' (tied.passed passes) distinct
          exact ⟨result, last, front', rest', point', (replay_of_ok stepped _).trans replayed, whole⟩
      | sealed atHead single sound seals course =>
          obtain ⟨next, stepped, on'⟩ := step_seals on single seals
          obtain ⟨newest, grown⟩ := seals.grown
          have anchored' := anchored.sealed course (by rw [seals.made, tied.same.2]) distinct
          have moved : front ++ (skipped ++ (commit :: part ++ later)) =
              front ++ skipped ++ [commit] ++ ([] ++ (part ++ later)) := by simp
          rw [moved] at distinct ⊢
          obtain ⟨result, last, front', rest', point', replayed, whole, anchoredLast, restsLast,
              grows, finished⟩ :=
            ih anchored' course on' (Or.inl ⟨rfl, rfl⟩) distinct
          refine ⟨result, last, front', rest', point', (replay_of_ok stepped _).trans replayed, whole,
            anchoredLast, restsLast, ?_, finished⟩
          rw [grown, tied.same.1] at grows
          exact (List.suffix_cons _ _).trans grows

/-- A replay does not depend on where the run is to end. -/
theorem replay_bounds (limit : Option Nat) (stop : String) :
    replay source { base with limit, stop } service state part =
      replay source base service state part := by
  refine replay_congr ?_ state part
  exact step_congr rfl rfl rfl

theorem Rests.opens (rests : Rests top source base service state point rest) :
    ∃ log, state.log.start = .ok log := by
  rcases rests with on | ⟨on, -⟩
  · exact on.opens
  · exact on.opens

/-- An open log is opened again. -/
theorem start_start {log opened : ErrorLog} (opens : log.start = .ok opened) :
    opened.start = .ok opened := by
  cases log with
  | absent =>
      cases opens
      rfl
  | text content =>
      cases opens
      rfl
  | blocked reason => cases opens

theorem Rests.withLog (rests : Rests top source base service state point rest) {log : ErrorLog}
    (opens : state.log.start = .ok log) :
    Rests top source base service { state with log } point rest := by
  have moved : ∀ {point : Point}, state.On top point → ({ state with log } : State).On top point :=
    fun on => ⟨on.same, on.keeps, on.apart, log, start_start opens⟩
  rcases rests with on | ⟨on, passes⟩
  · exact Or.inl (moved on)
  · exact Or.inr ⟨moved on, passes⟩

/-- What a run replays next, with the disk as it is. -/
theorem Anchored.now (anchored : Anchored top source base service final front rest point)
    (rests : Rests top source base service state point rest) :
    ∃ current, Course top source base service current rest final ∧ state.On top current ∧
      Tied source base service point current [] rest := by
  rcases rests with on | ⟨on, commit, first, passes⟩
  · exact ⟨point, anchored.course, on, Or.inl ⟨rfl, rfl⟩⟩
  · refine ⟨point.restored, ?_, on, Or.inr ⟨rfl, commit, first, passes⟩⟩
    obtain ⟨others, rfl⟩ := List.head?_eq_some_iff.1 first
    have atHead := anchored.course.atHead.restored
    cases anchored.course with
    | ended before ends => exact .ended atHead ends
    | passed before passes course => exact .passed atHead passes course
    | sealed before single sound seals course =>
        obtain ⟨-, error, unstageable, -⟩ := passes
        exact absurd unstageable (sound error)

/-- What a run is to replay is a beginning of the rest.  It is all of the rest where neither the
range end nor the limit cuts it. -/
theorem Anchored.prepares (sequential : Sequential source commits) (whole : commits = front ++ rest)
    (anchored : Anchored top source base service final front rest point)
    (chain : Chain state.destination.repository point.commits)
    (served : serviceOf base = .ok service) {stop : String} {count : Nat}
    (ends : EndsAt source base.start commits stop count) (limit : Option Nat) :
    ∃ part later completed, rest = part ++ later ∧
      prepare source { base with limit, stop } state.destination = .ok (service, part, completed) ∧
      (count = commits.length → limit = none ∨ completed = true → later = []) := by
  subst whole
  have pending := anchored.pending chain sequential.distinct ends limit
  obtain ⟨others, limited⟩ := limited_isPrefix limit
    ((rest.take (count - front.length)).map (·.id))
  obtain ⟨part, others', split, ids, -⟩ := List.map_eq_append_iff.1 limited.symm
  have all : rest = part ++ (others' ++ rest.drop (count - front.length)) := by
    rw [← List.append_assoc, ← split, List.take_append_drop]
  have mined : (Transcode.limited limit ((rest.take (count - front.length)).map (·.id))).1.mapM
      source.metadata = .ok part := by
    rw [← ids, mapM_eq_ok_iff, List.forall₂_map_left_iff, List.forall₂_same]
    intro commit member
    exact sequential.known commit (List.mem_append_right _ (all ▸ List.mem_append_left _ member))
  refine ⟨part, _, _, all, prepare_eq_ok.2 ⟨served, _, pending, rfl, mined⟩, ?_⟩
  intro full complete
  have short : rest.take (count - front.length) = rest := by
    apply List.take_of_length_le
    rw [full, List.length_append]
    omega
  rw [short] at ids complete
  have uncut : (Transcode.limited limit (rest.map (·.id))).1 = rest.map (·.id) := by
    rcases complete with rfl | done
    · rfl
    · exact limited_eq_of_completed done
  have lengths := congrArg List.length (ids.trans uncut)
  have lengths' := congrArg List.length all
  rw [List.length_map, List.length_map] at lengths
  rw [List.length_append] at lengths'
  exact List.eq_nil_of_length_eq_zero (by omega)

/-- **A run** goes on along the course from where it finds the destination, and leaves it
where the next run can go on. -/
theorem run_resumes (sequential : Sequential source commits) (whole : commits = front ++ rest)
    (anchored : Anchored top source base service final front rest point)
    (rests : Rests top source base service state point rest)
    (served : serviceOf base = .ok service) {stop : String} {count : Nat}
    (ends : EndsAt source base.start commits stop count) (limit : Option Nat) :
    ∃ result next front' rest' point', run source { base with limit, stop } state = (result, next) ∧
      commits = front' ++ rest' ∧ Anchored top source base service final front' rest' point' ∧
      Rests top source base service next point' rest' ∧ point.commits <:+ point'.commits ∧
      (count = commits.length → limit = none ∨ result = .ok true → point'.commits = final) := by
  obtain ⟨part, later, completed, rfl, prepared, ended⟩ := anchored.prepares sequential whole
    (rests.chain anchored.course.atHead) served ends limit
  obtain ⟨log, opened⟩ := rests.opens
  obtain ⟨current, course, on, tied⟩ := anchored.now (rests.withLog opened)
  have distinct := sequential.distinct
  rw [whole] at distinct
  obtain ⟨result, next, front', rest', point', replayed, same, anchored', rests', grows, finished⟩ :=
    @replay_resumes _ _ _ _ front part later [] final point current { state with log }
      anchored course on tied distinct
  have ran : run source { base with limit, stop } state = (result.map fun _ => completed, next) := by
    refine run_of_replay prepared opened ?_
    rw [replay_bounds, replayed]
  refine ⟨_, next, front', rest', point', ran, whole.trans same, anchored', rests', grows, ?_⟩
  intro full complete
  refine finished (ended full (complete.imp_right fun done => ?_))
  cases result with
  | error error => cases done
  | ok value => exact Except.ok.inj done

end Anchored

/-! ## All states between runs -/

/-- The states that runs lead to which differ in their limits and range ends only.  Between
two runs the destination may be opened again, and what lies outside its working tree may
change. -/
inductive Resumed (source : RevisionSource) (base : Settings) (commits : List SourceCommit)
    (top : TreePath) (first : State) : State → Prop where
  | start : Resumed source base commits top first first
  | reopen {state : State} (disk : Disk) :
      Resumed source base commits top first state →
      disk.at? top = state.destination.disk.at? top →
      Resumed source base commits top first
        { state with destination := { state.destination.reopen with disk } }
  | run {state : State} {stop : String} {count : Nat} (limit : Option Nat) :
      Resumed source base commits top first state →
      EndsAt source base.start commits stop count →
      Resumed source base commits top first
        (Transcode.run source { base with limit, stop } state).2

/-- A state with a new destination in an empty directory. -/
def newState (workspace : Workspace) (top : TreePath) (log : ErrorLog)
    (logPlace : Option TreePath) : State :=
  { destination := workspace.create (top ++ [TreePath.gitDirectory]) false, log, logPlace }

section Resumed

variable {source : RevisionSource} {base : Settings} {commits : List SourceCommit}
  {top : TreePath} {workspace : Workspace} {log : ErrorLog} {logPlace : Option TreePath}
  {state : State}

/-- The point of a new destination. -/
def newPoint (workspace : Workspace) (top : TreePath) : Point :=
  { destination := workspace.create (top ++ [TreePath.gitDirectory]) false
    tree := ∅, commits := [], made := [] }

theorem atHead_newPoint (workspace : Workspace) (top : TreePath) :
    (newPoint workspace top).AtHead top where
  backs := by
    refine ⟨rfl, rfl, Snapshot.plain_empty, ?_, fun _ _ found => found⟩
    intro place entry found
    cases found
  saved := rfl
  chain := Destination.chain_create _ _ _
  names := rfl
  level := rfl

/-- At the point of a new destination nothing has been sealed. -/
theorem anchored_newPoint {service : Option CommentService} {final : List Commit}
    (course : Course top source base service (newPoint workspace top) commits final) :
    Anchored top source base service final [] commits (newPoint workspace top) := by
  refine ⟨course, rfl, ?_, List.nodup_nil⟩
  intro id member
  cases member

/-- A new repository in an empty directory keeps the empty tree. -/
theorem keeps_newState (vacant : workspace.disk.at? top = some .vacant) :
    (newState workspace top log logPlace).destination.disk.Keeps top ∅ := by
  have ordered : Disk.Ordered workspace.disk top := by
    intro way entries found
    rw [Disk.Node.at?_append, vacant] at found
    exact Disk.ordered_vacant [] way entries found
  exact ⟨(Disk.holds_vacant vacant).create false, Destination.ordered_create ordered _ _⟩

theorem on_newPoint (vacant : workspace.disk.at? top = some .vacant)
    (apart : ∀ place, logPlace = some place → ¬ top <+: place)
    (opens : ∃ opened, log.start = .ok opened) :
    (newState workspace top log logPlace).On top (newPoint workspace top) where
  same := rfl
  keeps := keeps_newState vacant
  apart := apart
  opens := opens

/-- Opening the destination again changes nothing. -/
theorem Rests.reopen {service : Option CommentService} {point : Point} {rest : List SourceCommit}
    (rests : Rests top source base service state point rest) (atHead : point.AtHead top)
    {disk : Disk} (same : disk.at? top = state.destination.disk.at? top) :
    Rests top source base service
      { state with destination := { state.destination.reopen with disk } } point rest := by
  have moved : ∀ {point : Point}, point.AtHead top → state.On top point →
      ({ state with destination := { state.destination.reopen with disk } } : State).On top point := by
    intro point atHead on
    refine ⟨?_, on.keeps.elsewhere same, on.apart, on.opens⟩
    have saved := atHead.saved
    show ({ state.destination.reopen with disk } : Destination) = _
    rw [on.same]
    unfold Destination.reopen
    dsimp only
    rw [saved]
  rcases rests with on | ⟨on, passes⟩
  · exact Or.inl (moved atHead on)
  · exact Or.inr ⟨moved atHead.restored on, passes⟩

/-- Between runs the destination is at a point of the course. -/
theorem Resumed.rests {service : Option CommentService} {final : List Commit}
    (sequential : Sequential source commits) (served : serviceOf base = .ok service)
    (vacant : workspace.disk.at? top = some .vacant)
    (apart : ∀ place, logPlace = some place → ¬ top <+: place)
    (opens : ∃ opened, log.start = .ok opened)
    (course : Course top source base service (newPoint workspace top) commits final)
    (resumed : Resumed source base commits top (newState workspace top log logPlace) state) :
    ∃ front rest point, commits = front ++ rest ∧
      Anchored top source base service final front rest point ∧
      Rests top source base service state point rest := by
  induction resumed with
  | start =>
      exact ⟨[], commits, newPoint workspace top, rfl, anchored_newPoint course,
        Or.inl (on_newPoint vacant apart opens)⟩
  | reopen disk _ same ih =>
      obtain ⟨front, rest, point, whole, anchored, rests⟩ := ih
      exact ⟨front, rest, point, whole, anchored, rests.reopen anchored.course.atHead same⟩
  | run limit _ ends ih =>
      obtain ⟨front, rest, point, whole, anchored, rests⟩ := ih
      obtain ⟨result, next, front', rest', point', ran, whole', anchored', rests', -⟩ :=
        run_resumes sequential whole anchored rests served ends limit
      rw [ran]
      exact ⟨front', rest', point', whole', anchored', rests'⟩

theorem Rests.history {service : Option CommentService} {final : List Commit}
    {front rest : List SourceCommit} {point : Point}
    (anchored : Anchored top source base service final front rest point)
    (rests : Rests top source base service state point rest) :
    state.destination.repository.history = point.commits.reverse :=
  (rests.chain anchored.course.atHead).history

/-- A run without its service or its log leaves the state as it is. -/
theorem run_idle {settings : Settings} {error : Error}
    (idle : serviceOf settings = .error error ∨ state.log.start = .error error) :
    ∃ error, run source settings state = (.error error, state) := by
  rcases idle with unserved | blocked
  · cases prepared : prepare source settings state.destination with
    | error own => exact run_unprepared (Or.inl prepared)
    | ok plan =>
        obtain ⟨served, -⟩ := prepare_eq_ok.1 prepared
        rw [unserved] at served
        cases served
  · exact run_unprepared (Or.inr blocked)

/-- Where no run can begin, nothing is ever made. -/
theorem Resumed.idle {first : State} {error : Error}
    (idle : serviceOf base = .error error ∨ first.log.start = .error error)
    (resumed : Resumed source base commits top first state) :
    state.log = first.log ∧ state.destination.repository = first.destination.repository := by
  induction resumed with
  | start => exact ⟨rfl, rfl⟩
  | reopen disk _ _ ih => exact ih
  | @run state stop count limit _ _ ih =>
      obtain ⟨error', ran⟩ := @run_idle source state { base with limit, stop } error
        (idle.imp_right fun blocked => by rw [ih.1, blocked])
      rw [ran]
      exact ih

/-- A run begins where there is its service and its log can be opened. -/
theorem begins_or_idle (base : Settings) (log : ErrorLog) :
    (∃ service opened, serviceOf base = .ok service ∧ log.start = .ok opened) ∨
      ∃ error, serviceOf base = .error error ∨ log.start = .error error := by
  cases served : serviceOf base with
  | error error => exact Or.inr ⟨error, Or.inl rfl⟩
  | ok service =>
      cases opens : log.start with
      | error error => exact Or.inr ⟨error, Or.inr rfl⟩
      | ok opened => exact Or.inl ⟨service, opened, rfl, rfl⟩

/-- Where no run can begin, each run is idle. -/
theorem Resumed.stays {first : State} {error : Error}
    (idle : serviceOf base = .error error ∨ first.log.start = .error error)
    (resumed : Resumed source base commits top first state) (limit : Option Nat) (stop : String) :
    ∃ error, Transcode.run source { base with limit, stop } state = (.error error, state) := by
  refine @run_idle source state { base with limit, stop } error (idle.imp_right fun blocked => ?_)
  rw [(resumed.idle idle).1, blocked]

/-- A single run over all commits seals what the course says. -/
theorem history_of_single {service : Option CommentService} {final : String} {made : List Commit}
    (sequential : Sequential source commits) (served : serviceOf base = .ok service)
    (course : Course top source base service (newPoint workspace top) commits made)
    (on : (newState workspace top log logPlace).On top (newPoint workspace top))
    (ends : EndsAt source base.start commits final commits.length) :
    (run source { base with limit := none, stop := final }
      (newState workspace top log logPlace)).2.destination.repository.history = made.reverse := by
  obtain ⟨result, next, front, rest, point, ran, -, anchored, rests, -, finished⟩ :=
    run_resumes sequential rfl (anchored_newPoint course) (Or.inl on) served ends none
  rw [ran, rests.history anchored, finished rfl (Or.inl rfl)]

/-- **Resumed runs equal a single run.**  After every run the history is a beginning of that
of a single run over all commits.  It is the same once a run to the end has completed, and
then no further run adds to it. -/
theorem resumed_runs_equal_single {final : String} (sequential : Sequential source commits)
    (spares : ∀ commit ∈ commits, Spares source commit)
    (ends : EndsAt source base.start commits final commits.length)
    (vacant : workspace.disk.at? top = some .vacant)
    (apart : ∀ place, logPlace = some place → ¬ top <+: place)
    (orderly : ∀ service opened, serviceOf base = .ok service → log.start = .ok opened →
      Orderly source base service (newState workspace top opened logPlace) commits)
    (resumed : Resumed source base commits top (newState workspace top log logPlace) state) :
    let single := (run source { base with limit := none, stop := final }
      (newState workspace top log logPlace)).2.destination.repository
    state.destination.repository.history <+: single.history ∧
      (∀ limit next, run source { base with limit, stop := final } state = (.ok true, next) →
        next.destination.repository.history = single.history) ∧
      (state.destination.repository.history = single.history →
        ∀ limit stop count, EndsAt source base.start commits stop count →
          (run source { base with limit, stop } state).2.destination.repository.history =
            single.history) := by
  intro single
  rcases begins_or_idle base log with ⟨service, opened, served, opens⟩ | ⟨error, idle⟩
  · have on := @on_newPoint top workspace log logPlace vacant apart ⟨opened, opens⟩
    obtain ⟨made, course⟩ := course_of_orderly (atHead_newPoint workspace top)
      (@on_newPoint top workspace opened logPlace vacant apart ⟨opened, start_start opens⟩)
      sequential.traceable spares (orderly service opened served opens)
    have whole : single.history = made.reverse :=
      history_of_single sequential served course on ends
    obtain ⟨front, rest, point, split, anchored, rests⟩ :=
      resumed.rests sequential served vacant apart ⟨opened, opens⟩ course
    rw [whole, rests.history anchored]
    refine ⟨List.reverse_prefix.2 anchored.course.grows, ?_, ?_⟩
    · intro limit next completed
      obtain ⟨result, next', front', rest', point', ran, -, anchored', rests', -, finished⟩ :=
        run_resumes sequential split anchored rests served ends limit
      rw [completed] at ran
      cases ran
      rw [rests'.history anchored', finished rfl (Or.inr rfl)]
    · intro same limit stop count ends'
      obtain ⟨result, next', front', rest', point', ran, -, anchored', rests', grows, -⟩ :=
        run_resumes sequential split anchored rests served ends' limit
      have all : point.commits = made := List.reverse_injective same
      have last : point'.commits = made :=
        anchored'.course.grows.eq_of_length_le (all ▸ grows).length_le
      rw [ran, rests'.history anchored', last]
  · have whole : single = state.destination.repository := by
      obtain ⟨error', ran⟩ := (@Resumed.start source base commits top
        (newState workspace top log logPlace)).stays idle none final
      show (run source _ (newState workspace top log logPlace)).2.destination.repository = _
      rw [ran, (resumed.idle idle).2]
    rw [whole]
    refine ⟨List.prefix_refl _, ?_, ?_⟩
    · intro limit next completed
      obtain ⟨error', ran⟩ := resumed.stays idle limit final
      cases ran.symm.trans completed
    · intro _ limit stop count _
      obtain ⟨error', ran⟩ := resumed.stays idle limit stop
      rw [ran]

end Resumed

/-! ## A history of two commits -/

namespace TwoCommits

/-- The id of the second commit. -/
def brokenId : String := String.ofList (List.replicate 40 '2')

/-- A commit that cannot be staged. -/
def broken : SourceCommit :=
  { OneFile.commit with id := brokenId, parents := [OneFile.onlyId], nonUtf8Paths := ["?"] }

def commits : List SourceCommit := [OneFile.commit, broken]

/-- A source of two commits, the first of which adds a file. -/
def source : RevisionSource where
  list range :=
    .ok (if range.start = .root then [OneFile.onlyId, brokenId]
      else if range.start = .after OneFile.onlyId then [brokenId] else [])
  metadata id := .ok (if id = OneFile.onlyId then OneFile.commit else broken)
  read path _ := .ok (OneFile.files 1 path)

/-- A new destination. -/
def state : State := newState OneFile.workspace OneFile.top .absent none

theorem sequential : Sequential source commits where
  distinct := by decide
  known := by
    intro commit member
    simp only [commits, List.mem_cons, List.not_mem_nil, or_false] at member
    rcases member with rfl | rfl
    · rfl
    · rfl
  traceable := by
    intro commit member
    simp only [commits, List.mem_cons, List.not_mem_nil, or_false] at member
    rcases member with rfl | rfl
    · exact ⟨by decide, by decide⟩
    · exact ⟨by decide, by decide⟩

theorem spares : ∀ commit ∈ commits, Spares source commit := by
  intro commit member path inside _
  simp only [commits, List.mem_cons, List.not_mem_nil, or_false] at member
  have only : path = "a" := by
    rcases member with rfl | rfl
    · exact List.mem_singleton.1 inside
    · exact List.mem_singleton.1 inside
  rw [only]
  decide

theorem ends : EndsAt source .root commits "HEAD" 2 where
  fromStart := rfl
  behind := by
    intro k commit found
    match k with
    | 0 =>
        cases found
        rfl
    | 1 =>
        cases found
        rfl
    | k + 2 => cases found

theorem orderly : Orderly source {} none (newState OneFile.workspace OneFile.top (.text "") none)
    commits := by
  refine ⟨Or.inr (Or.inr ?_), fun next _ => ⟨Or.inr (Or.inl ⟨_, rfl⟩), fun _ _ => trivial⟩⟩
  have seals : sealsNew source {} none state.destination OneFile.commit = true := by decide +kernel
  exact convert_of_sealsNew seals

/-- The first commit is replayed, and nothing more. -/
def halfway : State := (run source { limit := some 1 } state).2

theorem resumed : Resumed source {} commits OneFile.top state halfway :=
  .run (some 1) .start ends

theorem completed : ∃ next, run source {} halfway = (.ok true, next) := by
  have done : (run source {} halfway).1 = .ok true := by decide +kernel
  generalize run source {} halfway = ran at done ⊢
  exact ⟨ran.2, Prod.ext done rfl⟩

end TwoCommits

/-- A run for one commit and then one to the end make what a single run makes. -/
theorem two_commits_resumed :
    ∃ next, run TwoCommits.source {} TwoCommits.halfway = (.ok true, next) ∧
      next.destination.repository.history =
        (run TwoCommits.source {} TwoCommits.state).2.destination.repository.history := by
  obtain ⟨next, ran⟩ := TwoCommits.completed
  obtain ⟨-, finished, -⟩ := @resumed_runs_equal_single TwoCommits.source {} TwoCommits.commits OneFile.top
    OneFile.workspace .absent none TwoCommits.halfway "HEAD" TwoCommits.sequential
    TwoCommits.spares TwoCommits.ends rfl (by simp)
    (by
      intro service opened served opens
      cases served
      cases opens
      exact TwoCommits.orderly)
    TwoCommits.resumed
  refine ⟨next, ran, ?_⟩
  have same := finished none next ran
  dsimp only at same
  unfold TwoCommits.state
  exact same

end TokenBlame.Transcode
