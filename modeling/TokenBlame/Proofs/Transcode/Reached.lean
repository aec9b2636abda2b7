/-
# TokenBlame.Proofs.Transcode.Reached -- what runs lead to

`Reached` is every state that runs lead to from a new destination, in any order and with
the destination opened again wherever one likes.  Which runs are made is left open: they
are those that are `allowed`.

A run over a linear history leads from a standing destination to a standing one
(`run_stands`), so every commit of a destination that is reached has the mirror of its
source commit (`reached_mirrors`).
-/
import TokenBlame.Proofs.Transcode.Mirroring

set_option autoImplicit false

namespace TokenBlame.Transcode

open Git

/-! ## Runs -/

/-- The states that runs lead to from a new destination.  Between two runs the destination
may be opened again, and what lies outside its working tree may change. -/
inductive Reached (allowed : Settings → State → Prop) (source : RevisionSource) (top : TreePath) :
    State → Prop where
  | fresh (workspace : Workspace) (log : ErrorLog) (logPlace : Option TreePath) :
      workspace.disk.at? top = some .vacant →
      Reached allowed source top
        { destination := workspace.create (top ++ [TreePath.gitDirectory]) false, log, logPlace }
  | reopen {state : State} (disk : Disk) (log : ErrorLog) (logPlace : Option TreePath) :
      Reached allowed source top state →
      disk.at? top = state.destination.disk.at? top →
      Reached allowed source top
        { destination := { state.destination.reopen with disk }, log, logPlace }
  | run {state : State} (settings : Settings) :
      Reached allowed source top state → allowed settings state →
      Reached allowed source top (Transcode.run source settings state).2

/-- Where fewer runs are allowed fewer states are reached. -/
theorem Reached.mono {allowed more : Settings → State → Prop}
    {source : RevisionSource} {top : TreePath} {state : State}
    (implies : ∀ settings state, allowed settings state → more settings state)
    (reached : Reached allowed source top state) : Reached more source top state := by
  induction reached with
  | fresh workspace log logPlace vacant => exact .fresh workspace log logPlace vacant
  | reopen disk log logPlace _ same ih => exact .reopen disk log logPlace ih same
  | run settings _ allowed ih => exact .run settings ih (implies _ _ allowed)

/-- Each commit that a replay seals is stored as a new one: no other commit has its name. -/
def Fresh (source : RevisionSource) (settings : Settings) (service : Option CommentService) :
    State → List SourceCommit → Prop
  | _, [] => True
  | state, commit :: rest =>
      (∀ next, convert source settings service state.destination commit = (.ok (), next) →
        next.repository.commits ≠ state.destination.repository.commits) ∧
      ∀ next, step source settings service state commit = (.ok (), next) →
        Fresh source settings service next rest

/-- Each commit that a run seals is stored as a new one. -/
def RunFresh (source : RevisionSource) (settings : Settings) (state : State) : Prop :=
  ∀ service commits completed log,
    prepare source settings state.destination = .ok (service, commits, completed) →
    state.log.start = .ok log → Fresh source settings service { state with log } commits

/-! ## Linear histories -/

section Linear

variable {source : RevisionSource} {ids : List String} {files : Nat → Files} {top : TreePath}
  {settings : Settings} {state : State} {k : Nat} {commits : List Commit}

/-- **A replay** of the next commits leads to a standing destination.  Its index is that of
the newest commit unless a commit could not be sealed. -/
theorem replay_stands (linear : Linear source ids files)
    (fits : ∀ k path content, files k path = some content → Disk.Fits top (Utf8.encode path))
    (stands : Stands settings.tokenize ids files top k commits state.destination)
    (level : Level settings.tokenize files k state.destination state.destination.Settled)
    {front : List String} {todo : List SourceCommit} (behind : front <+: ids.drop k)
    (known : front.mapM source.metadata = .ok todo)
    (fresh : Fresh source settings none state todo) :
    ∃ result next k' commits', replay source settings none state todo = (result, next) ∧
      Stands settings.tokenize ids files top k' commits' next.destination ∧
      Level settings.tokenize files k' next.destination
        (next.destination.Settled ∨ ∃ id fault, result = .error (.sealing id fault)) := by
  induction todo generalizing state k commits front with
  | nil => exact ⟨_, _, k, commits, rfl, stands, Level.imp level Or.inl⟩
  | cons commit todo ih =>
      obtain ⟨id, front, own, others, rfl⟩ := List.forall₂_cons_right_iff.1 (mapM_eq_ok_iff.1 known)
      obtain ⟨rest, whole⟩ := behind
      have here : ids[k]? = some id := by
        rw [← List.head?_drop, ← whole]
        rfl
      have behind' : front <+: ids.drop (k + 1) := by
        refine ⟨rest, ?_⟩
        rw [← List.tail_drop, ← whole]
        rfl
      obtain ⟨stored, later⟩ := fresh
      cases single : commit.isMerge with
      | true =>
          exact ⟨_, _, k, commits, replay_of_error (step_of_merge single state) _, stands,
            Level.imp level Or.inl⟩
      | false =>
          obtain ⟨result, next, converted, mirrors, outcome⟩ :=
            convert_stands linear fits stands level here own
          rcases outcome with ⟨fault, rfl, stands'⟩ | ⟨rfl, grown⟩
          · exact ⟨_, _, k, commits, replay_of_error (step_of_fatal single converted rfl) _, stands',
              Or.inr ⟨mirrors, Or.inr ⟨_, _, rfl⟩⟩⟩
          · have stepped := step_of_sealed single converted
            obtain ⟨made, stands'⟩ := grown (stored next converted)
            rw [replay_of_ok stepped]
            exact ih stands' (Or.inl mirrors) behind' (mapM_eq_ok_iff.2 others) (later _ stepped)

/-- **A run** leads from a standing destination to a standing one. -/
theorem run_stands (linear : Linear source ids files)
    (fits : ∀ k path content, files k path = some content → Disk.Fits top (Utf8.encode path))
    (fromRoot : settings.start = .root) (plain : settings.comments = none)
    (fresh : RunFresh source settings state)
    (stands : Stands settings.tokenize ids files top k commits state.destination)
    (level : Mirrors settings.tokenize (files k) state.destination.index ∨
      Mirrors settings.tokenize (files (k + 1)) state.destination.index ∧
        state.destination.Settled) :
    ∃ result next k' commits', run source settings state = (result, next) ∧
      Stands settings.tokenize ids files top k' commits' next.destination ∧
      Level settings.tokenize files k' next.destination
        (next.destination.Settled ∨ ∃ id fault, result = .error (.sealing id fault)) := by
  rcases run_begins source settings state with
    ⟨error, idle⟩ | ⟨service, todo, completed, log, prepared, opened⟩
  · exact ⟨_, _, k, commits, idle, stands, Level.imp level Or.inl⟩
  obtain ⟨rfl, front, behind, known⟩ := linear.front fromRoot plain stands.replayed.small
    stands.chain stands.replayed.names prepared
  have fresh := fresh none todo completed log prepared opened
  obtain ⟨result, next, k', commits', replayed, stands', level'⟩ :=
    @replay_stands _ _ _ _ settings { state with log } _ _ linear fits stands level _ _ behind
      known fresh
  refine ⟨_, _, k', commits', run_of_replay prepared opened replayed, stands',
    level'.imp (Or.imp_right ?_)⟩
  rintro ⟨id, fault, rfl⟩
  exact ⟨id, fault, rfl⟩

end Linear

/-! ## Everything that is reached -/

/-- A run over the commits of a source from the first one on that keeps comments. -/
structure Keeping (source : RevisionSource) (tokenize : Bool) (settings : Settings)
    (state : State) : Prop where
  fromRoot : settings.start = .root
  comments : settings.comments = none
  form : settings.tokenize = tokenize
  fresh : RunFresh source settings state

section Reached

variable {source : RevisionSource} {ids : List String} {files : Nat → Files} {top : TreePath}
  {tokenize : Bool} {state : State}

/-- What is reached by runs from settled destinations is a standing destination. -/
theorem reached_stands (linear : Linear source ids files)
    (fits : ∀ k path content, files k path = some content → Disk.Fits top (Utf8.encode path))
    (reached : Reached (fun settings state =>
      Keeping source tokenize settings state ∧ state.destination.Settled) source top state) :
    ∃ k commits, Stands tokenize ids files top k commits state.destination ∧
      Level tokenize files k state.destination True := by
  induction reached with
  | fresh workspace log logPlace vacant =>
      exact ⟨0, [], stands_create workspace vacant, Or.inl (mirrors_empty linear.start)⟩
  | reopen disk log logPlace _ same ih =>
      obtain ⟨k, commits, stands, level⟩ := ih
      refine ⟨k, commits, stands.reopen same, ?_⟩
      unfold Level at level ⊢
      rw [← stands.saved] at level
      exact level
  | run settings _ allowed ih =>
      obtain ⟨keeping, settled⟩ := allowed
      obtain ⟨k, commits, stands, level⟩ := ih
      cases keeping.form
      obtain ⟨result, next, k', commits', ran, stands', level'⟩ := run_stands linear fits
        keeping.fromRoot keeping.comments keeping.fresh stands (level.imp fun _ => settled)
      rw [ran]
      exact ⟨k', commits', stands', level'.imp fun _ => trivial⟩

/-- **Every commit has the mirror of its source commit**, whatever runs led to it, as long
as none of them began with a destination that was not settled.  From one that is not
settled, the next commit of the source fails and is passed over. -/
theorem commits_mirror_source (linear : Linear source ids files)
    (fits : ∀ k path content, files k path = some content → Disk.Fits top (Utf8.encode path))
    (reached : Reached (fun settings state =>
      Keeping source tokenize settings state ∧ state.destination.Settled) source top state) :
    (∀ commit ∈ state.destination.repository.commits, ∃ k id, ids[k]? = some id ∧
      Trailer.source? commit.message = some id ∧
        Mirrors tokenize (files (k + 1)) commit.tree) ∧
    (¬ state.destination.Settled → ∀ settings commit rest completed,
      Keeping source tokenize settings state →
      prepare source settings state.destination = .ok (none, commit :: rest, completed) →
      ∃ error next, convert source settings none state.destination commit = (.error error, next) ∧
        error.isFatal = false) := by
  obtain ⟨k, commits, stands, level⟩ := reached_stands linear fits reached
  constructor
  · intro commit member
    rw [stands.chain.commits_eq] at member
    obtain ⟨-, j, id, -, here, named, mirrors⟩ := stands.replayed.mem member
    exact ⟨j, id, here, named, mirrors⟩
  · intro unsettled settings commit rest completed keeping prepared
    cases keeping.form
    obtain ⟨-, front, ⟨others, whole⟩, known⟩ := linear.front keeping.fromRoot keeping.comments
      stands.replayed.small stands.chain stands.replayed.names prepared
    obtain ⟨id, front, own, -, rfl⟩ := List.forall₂_cons_right_iff.1 (mapM_eq_ok_iff.1 known)
    have here : ids[k]? = some id := by
      rw [← List.head?_drop, ← whole]
      rfl
    rcases level with mirrors | ⟨ahead, -⟩
    · exact absurd (stands.settled (linear.proper k stands.replayed.small) mirrors) unsettled
    · exact convert_unsettled linear fits stands ahead unsettled here own

end Reached

/-! ## A history of one file -/

namespace OneFile

/-- The id of the only commit. -/
def onlyId : String := String.ofList (List.replicate 40 '1')

def commit : SourceCommit :=
  { id := onlyId, parents := [], description := "one file", time := 0, offsetMinutes := 0,
    touched := ["a"], copies := ∅, nonUtf8Paths := [] }

def files (count : Nat) : Files := fun path =>
  if 0 < count ∧ path = "a" then some [0x78] else none

/-- A source of one commit, which adds one file. -/
def source : RevisionSource where
  list range := .ok (if range.start = .root then [onlyId] else [])
  metadata _ := .ok commit
  read path _ := .ok (files 1 path)

def top : TreePath := [Utf8.encode "out"]

def workspace : Workspace := { disk := .directory [(Utf8.encode "out", .vacant)] }

/-- A new destination. -/
def state : State :=
  { destination := workspace.create (top ++ [TreePath.gitDirectory]) false, log := .absent }

theorem files_eq_some {k : Nat} {path : String} {content : Bytes}
    (there : files k path = some content) : path = "a" := by
  unfold files at there
  split at there
  · rename_i same
    exact same.2
  · cases there

theorem linear : Linear source [onlyId] files where
  isId := by decide
  distinct := List.nodup_singleton _
  fromRoot := by
    intro stop listed same
    cases same
    exact List.prefix_refl _
  behind := by
    intro k id stop listed _ same
    cases same
    exact List.nil_prefix
  honest := by
    intro k id found here same
    cases same
    cases k with
    | succ k => cases here
    | zero =>
        cases here
        refine ⟨rfl, by decide, rfl, ?_, ?_⟩
        · intro path changed
          cases there : files 1 path with
          | none =>
              rw [there] at changed
              exact absurd rfl changed
          | some content =>
              rw [files_eq_some there]
              decide
        · intro path member
          rw [List.mem_singleton.1 member]
          exact Or.inr (by decide)
  reads := by
    intro k id path here
    cases k with
    | zero => rfl
    | succ k => cases here
  start _ := rfl
  proper := by
    intro k _
    constructor
    · intro path content there
      obtain rfl := files_eq_some there
      decide
    · intro a b contentA contentB thereA thereB
      obtain rfl := files_eq_some thereA
      obtain rfl := files_eq_some thereB
      exact ⟨by decide, by decide⟩

theorem fits (k : Nat) (path : String) (content : Bytes) (there : files k path = some content) :
    Disk.Fits top (Utf8.encode path) := by
  obtain rfl := files_eq_some there
  exact ⟨by decide, by decide⟩

theorem keeping : Keeping source true {} state := by
  refine ⟨rfl, rfl, rfl, ?_⟩
  intro service commits completed log prepared opened
  have plan : prepare source {} state.destination = .ok (none, [commit], true) := rfl
  rw [plan] at prepared
  cases prepared
  refine ⟨?_, fun _ _ => trivial⟩
  intro next converted
  have grown : (convert source {} none state.destination commit).2.repository.commits ≠ [] := by
    decide +kernel
  rw [converted] at grown
  exact grown

theorem settled : state.destination.Settled := by
  intro tree head
  cases head

end OneFile

/-- A run over a history of one file makes a commit, and its tree is the mirror. -/
theorem one_file_mirrored :
    ∃ commit ∈ (run OneFile.source {} OneFile.state).2.destination.repository.commits,
      ∃ k id, [OneFile.onlyId][k]? = some id ∧ Trailer.source? commit.message = some id ∧
        Mirrors true (OneFile.files (k + 1)) commit.tree := by
  have mirrored := (commits_mirror_source OneFile.linear OneFile.fits
    (.run {} (.fresh OneFile.workspace .absent none rfl)
      ⟨OneFile.keeping, OneFile.settled⟩)).1
  have made : (run OneFile.source {} OneFile.state).2.destination.repository.commits ≠ [] := by
    decide +kernel
  obtain ⟨commit, others, shape⟩ := List.exists_cons_of_ne_nil made
  exact ⟨commit, shape ▸ List.mem_cons_self, mirrored commit (shape ▸ List.mem_cons_self)⟩

end TokenBlame.Transcode
