/-
# TokenBlame.Proofs.Transcode.Course -- the course that a replay takes

Where a replay stands is told by its commits, its index and its working tree (`Point`);
what else is on the disk makes no difference.  From a point at HEAD the next commit is
sealed, is passed over or ends the replay, on every disk in the same way (`Course`).

Where all commits are sealed unless something is wrong with them before anything is staged
(`Orderly`), a replay has a course (`course_of_orderly`).
-/
import TokenBlame.Proofs.Destination.Restoring
import TokenBlame.Proofs.Mapping
import TokenBlame.Proofs.Transcode.Steps

set_option autoImplicit false

namespace TokenBlame.Transcode

open Git

variable {source : RevisionSource} {settings : Settings} {service : Option CommentService}
  {commit : SourceCommit} {top : TreePath}

/-! ## Commits that cannot be staged -/

/-- Something is wrong with a commit before anything is staged: a path that is not valid
UTF-8, a file that cannot be read, or a path that leads out of the working tree. -/
def Unstageable (source : RevisionSource) (settings : Settings) (service : Option CommentService)
    (commit : SourceCommit) (error : Error) : Prop :=
  (do FileChange.checkAll (← changes source settings service commit)) = .error error

/-- A commit that cannot be staged leaves the destination as it is. -/
theorem convert_unstageable {error : Error}
    (unstageable : Unstageable source settings service commit error) (destination : Destination) :
    convert source settings service destination commit = (.error error, destination) := by
  unfold Unstageable at unstageable
  cases found : changes source settings service commit with
  | error own =>
      rw [found] at unstageable
      cases unstageable
      exact convert_of_unreadable found destination
  | ok wanted =>
      rw [found] at unstageable
      have checked : FileChange.checkAll wanted = .error error := unstageable
      exact convert_of_unstaged found (Destination.stage_of_unchecked checked)

/-- A commit that is passed over: the run goes on without it. -/
def PassedOver (source : RevisionSource) (settings : Settings) (service : Option CommentService)
    (commit : SourceCommit) : Prop :=
  commit.isMerge = false ∧ ∃ error, Unstageable source settings service commit error ∧
    error.isFatal = false

/-- A commit that ends a run. -/
def EndsRun (source : RevisionSource) (settings : Settings) (service : Option CommentService)
    (commit : SourceCommit) : Prop :=
  commit.isMerge = true ∨ ∃ error, Unstageable source settings service commit error ∧
    error.isFatal = true

/-- A commit whose message will name it. -/
structure Traceable (commit : SourceCommit) : Prop where
  isId : Trailer.IsId commit.id
  unnamed : Trailer.source? (Trailer.quiet commit.description) = none

/-- A commit removes nothing that is inside the repository's own directory. -/
def Spares (source : RevisionSource) (commit : SourceCommit) : Prop :=
  ∀ path ∈ Plan.paths commit, source.read path commit.id = .ok none → Destination.Outside path

/-- What a commit that spares the repository's own directory removes is outside of it. -/
theorem Spares.outside (spares : Spares source commit) {wanted : List FileChange}
    (found : changes source settings service commit = .ok wanted) {path : String}
    (removed : .remove path ∈ wanted) : Destination.Outside path := by
  have inside := path_mem_of_changes found _ removed
  rcases change_eq_ok_iff.1 (change_of_changes found removed) with ⟨gone, -⟩ | ⟨_, -, ⟨⟩⟩
  exact spares _ inside gone

/-! ## Points -/

/-- Where a replay stands: a destination on some disk, the snapshot that its working tree
holds, its commits and the source commits of these, newest first. -/
structure Point where
  destination : Destination
  tree : Snapshot
  commits : List Commit
  made : List String

/-- The point with all files of the index in the working tree. -/
def Point.restored (point : Point) : Point :=
  { point with tree := point.destination.index }

/-- A point with nothing staged: the index is that of the newest commit. -/
structure Point.AtHead (top : TreePath) (point : Point) : Prop where
  backs : Destination.Backs top point.destination point.tree
  saved : point.destination.saved = point.destination.index
  chain : Chain point.destination.repository point.commits
  names : Destination.Names point.commits point.made
  level : point.destination.index = (point.commits.head?.map (·.tree)).getD ∅

section Point

variable {point : Point} {disk : Disk}

theorem Point.AtHead.restored (atHead : point.AtHead top) : point.restored.AtHead top where
  backs := ⟨atHead.backs.home, atHead.backs.working, atHead.backs.plain, atHead.backs.taken,
    fun _ _ found => found⟩
  saved := atHead.saved
  chain := atHead.chain
  names := atHead.names
  level := atHead.level

/-- A commit is sealed: from one point it leads to the next, whatever disk it is on. -/
structure Seals (top : TreePath) (source : RevisionSource) (settings : Settings)
    (service : Option CommentService) (point : Point) (commit : SourceCommit) (next : Point) :
    Prop where
  atHead : next.AtHead top
  leads : Destination.Leads top (convert source settings service · commit) point.destination
    point.tree next.destination next.tree
  made : next.made = commit.id :: point.made
  grown : ∃ newest, next.commits = newest :: point.commits

/-- The commit that is made of a source commit names it. -/
theorem source?_sealed (staged : Destination) (parent : Option Commit) (signature : Signature)
    (traceable : Traceable commit)
    (clean : (Trailer.message commit.description commit.id).toList.contains '\x00' = false) :
    Trailer.source? (staged.nextCommit parent (Trailer.message commit.description commit.id)
      signature).message = some commit.id := by
  rw [Destination.source?_nextCommit _ _ clean, Trailer.source?_message _ traceable.isId,
    traceable.unnamed]
  rfl

/-- **What was staged** and then sealed on one disk is sealed on every disk. -/
theorem sealStaged_leads {staged next : Destination} {tree : Snapshot} {commits : List Commit}
    (backs : Destination.Backs top staged tree) (chain : Chain staged.repository commits)
    (traceable : Traceable commit)
    (made : sealStaged settings staged commit = (.ok (), next))
    (stored : next.repository.commits ≠ commits) :
    ∃ newest, Chain next.repository (newest :: commits) ∧ newest.tree = staged.index ∧
      Trailer.source? newest.message = some commit.id ∧ Destination.Backs top next tree ∧
      next.index = staged.index ∧ next.saved = staged.saved ∧
      Destination.Leads top (sealStaged settings · commit) staged tree next tree := by
  obtain ⟨id, committed⟩ := of_sealStaged_ok made
  rcases staged.commitIndex_cases (Trailer.message commit.description commit.id) settings.identity
    commit.time commit.offsetMinutes with ⟨signature, parent, signed, tip, clean, -⟩ | ⟨-, _, failed⟩
  swap
  · cases committed.symm.trans failed
  cases chain.tipCommit.symm.trans tip
  have every : ∀ disk : Disk, ({ staged with disk } : Destination).commitIndex
      (Trailer.message commit.description commit.id) settings.identity commit.time
      commit.offsetMinutes =
        (.ok (staged.nextCommit commits.head? (Trailer.message commit.description commit.id)
          signature).id,
        ({ staged with disk } : Destination).withRepository (staged.repository.advance
          (staged.nextCommit commits.head? (Trailer.message commit.description commit.id)
            signature))) := fun disk =>
    @Destination.commitIndex_of_whole { staged with disk } _ _ _ _ _ _ signed tip clean
  have named := source?_sealed staged commits.head? signature traceable clean
  have longer := @Destination.chain_seal staged commits (Trailer.message commit.description commit.id)
    chain signature
  have own : (staged.nextCommit commits.head? (Trailer.message commit.description commit.id)
    signature).tree = staged.index := rfl
  generalize staged.nextCommit commits.head? (Trailer.message commit.description commit.id)
    signature = newest at every named longer own
  have here := every staged.disk
  rw [committed] at here
  obtain rfl : next = staged.withRepository (staged.repository.advance newest) :=
    (Prod.mk.inj here).2
  have fresh := fresh_of_advance (by rw [chain.commits_eq]; exact stored)
  rw [chain.commits_eq] at fresh
  refine ⟨newest, longer fresh, own, named,
    ⟨backs.home, backs.working, backs.plain, backs.taken, backs.inner⟩, rfl, rfl, ?_⟩
  intro disk keeps
  exact ⟨_, sealStaged_of_ok (every disk), Destination.keeps_recordBranches backs.home keeps
    staged.bare (staged.repository.advance newest)⟩

/-- **A commit that was replayed** on one disk is sealed on every disk. -/
theorem Point.AtHead.convert (atHead : point.AtHead top) (keeps : disk.Keeps top point.tree)
    (traceable : Traceable commit) (spares : Spares source commit) {next : Destination}
    (converted : Transcode.convert source settings service { point.destination with disk } commit =
      (.ok (), next))
    (stored : next.repository.commits ≠ point.destination.repository.commits) :
    ∃ tree commits made, Seals top source settings service point commit
      ⟨next, tree, commits, made⟩ := by
  obtain ⟨wanted, staged, found, put, sealed⟩ := of_convert_ok converted
  obtain ⟨tree, backs, alike, saved, staging⟩ := atHead.backs.stage keeps
    (fun path removed => spares.outside found removed) put
  have chain : Chain staged.repository point.commits := atHead.chain.of_core alike.core
  rw [atHead.chain.commits_eq] at stored
  obtain ⟨newest, longer, own, named, backs', index, saved', sealing⟩ :=
    sealStaged_leads backs chain traceable sealed stored
  refine ⟨tree, newest :: point.commits, commit.id :: point.made,
    ⟨backs', ?_, longer, Destination.names_cons atHead.names named, ?_⟩, ?_, rfl, newest, rfl⟩
  · rw [saved', index, saved]
  · rw [index, ← own]
    rfl
  · intro other also
    obtain ⟨middle, first, keeps'⟩ := staging other also
    obtain ⟨last, second, keepsLast⟩ := sealing middle keeps'
    exact ⟨last, (convert_of_staged found first).trans second, keepsLast⟩

end Point

/-! ## Steps -/

/-- A state at a point: its destination is the point's on its own disk, whose working tree
holds what the point's does.  The log can be opened, and it is not in the working tree. -/
structure State.On (top : TreePath) (state : State) (point : Point) : Prop where
  same : state.destination = { point.destination with disk := state.destination.disk }
  keeps : state.destination.disk.Keeps top point.tree
  apart : ∀ place, state.logPlace = some place → ¬ top <+: place
  opens : ∃ log, state.log.start = .ok log

section Steps

variable {state : State} {point next : Point}

theorem opens_record {log : ErrorLog} (opens : ∃ opened, log.start = .ok opened) :
    ∃ opened, (log.record commit).start = .ok opened := by
  cases log with
  | absent => exact opens
  | text content => exact ⟨_, rfl⟩
  | blocked reason => exact opens

theorem State.On.chain (on : state.On top point) (atHead : point.AtHead top) :
    Chain state.destination.repository point.commits := by
  rw [on.same]
  exact atHead.chain

/-- A line of a log that is not in the working tree leaves that as it is. -/
theorem keeps_append {disk : Disk} {tree : Snapshot} (keeps : disk.Keeps top tree)
    {place : TreePath} (apart : ¬ top <+: place) (line : Bytes) :
    (disk.append place line).Keeps top tree := by
  refine keeps.elsewhere ?_
  unfold Disk.append
  split
  · rename_i before executable found
    refine Disk.at?_put_apart _ ?_ apart
    rintro ⟨rest, rfl⟩
    -- above the working tree there are directories only
    cases rest with
    | nil => exact apart (by simp)
    | cons name rest =>
        have seen := Disk.look_above keeps.holds.stands
        rw [Disk.look, found] at seen
        cases seen
  · rfl

theorem State.On.record (on : state.On top point) (commit : SourceCommit) :
    (state.record commit).On top point := by
  refine ⟨?_, ?_, on.apart, opens_record on.opens⟩
  · show ({ state.destination with disk := _ } : Destination) = _
    rw [on.same]
    rfl
  · show (state.logPlace.elim state.destination.disk _).Keeps top point.tree
    cases place : state.logPlace with
    | none => exact on.keeps
    | some place' => exact keeps_append on.keeps (on.apart place' place) _

/-- A commit that is passed over brings back the files that the working tree has lost. -/
theorem step_passedOver (atHead : point.AtHead top) (on : state.On top point)
    (passes : PassedOver source settings service commit) :
    ∃ next, step source settings service state commit = (.ok (), next) ∧
      next.On top point.restored := by
  obtain ⟨single, error, unstageable, mild⟩ := passes
  have recorded := on.record commit
  obtain ⟨disk, reset, keeps⟩ := atHead.backs.reset recorded.keeps atHead.saved
    atHead.chain.tipCommit atHead.level
  rw [← recorded.same] at reset
  refine ⟨{ state.record commit with destination := { point.destination with disk } }, ?_,
    rfl, keeps, on.apart, recorded.opens⟩
  rw [step_of_mild single (convert_unstageable unstageable _) mild]
  exact setBack_of_reset reset

/-- A commit that ends the run leaves the state as it is. -/
theorem step_endsRun (ends : EndsRun source settings service commit) :
    ∃ error, ∀ state, step source settings service state commit = (.error error, state) := by
  cases merge : commit.isMerge with
  | true => exact ⟨_, step_of_merge merge⟩
  | false =>
      rcases ends with own | ⟨error, unstageable, fatal⟩
      · rw [merge] at own
        cases own
      · exact ⟨error, fun state => step_of_fatal merge (convert_unstageable unstageable _) fatal⟩

/-- A commit that is sealed leads to the next point. -/
theorem step_seals (on : state.On top point) (single : commit.isMerge = false)
    (seals : Seals top source settings service point commit next) :
    ∃ state', step source settings service state commit = (.ok (), state') ∧ state'.On top next := by
  obtain ⟨disk, converted, keeps⟩ := seals.leads state.destination.disk on.keeps
  dsimp only at converted
  rw [← on.same] at converted
  exact ⟨{ state with destination := { next.destination with disk } },
    step_of_sealed single converted, rfl, keeps, on.apart, on.opens⟩

end Steps

/-! ## Courses -/

/-- What becomes of commits from a point on, and the commits that there are at the end. -/
inductive Course (top : TreePath) (source : RevisionSource) (settings : Settings)
    (service : Option CommentService) : Point → List SourceCommit → List Commit → Prop where
  | done {point : Point} :
      point.AtHead top → Course top source settings service point [] point.commits
  | ended {point : Point} {commit : SourceCommit} {rest : List SourceCommit} :
      point.AtHead top → EndsRun source settings service commit →
      Course top source settings service point (commit :: rest) point.commits
  | passed {point : Point} {commit : SourceCommit} {rest : List SourceCommit}
      {final : List Commit} :
      point.AtHead top → PassedOver source settings service commit →
      Course top source settings service point.restored rest final →
      Course top source settings service point (commit :: rest) final
  | sealed {point next : Point} {commit : SourceCommit} {rest : List SourceCommit}
      {final : List Commit} :
      point.AtHead top → commit.isMerge = false →
      (∀ error, ¬ Unstageable source settings service commit error) →
      Seals top source settings service point commit next →
      Course top source settings service next rest final →
      Course top source settings service point (commit :: rest) final

/-- Each commit is sealed as a new one, unless something is wrong with it before anything is
staged. -/
def Orderly (source : RevisionSource) (settings : Settings) (service : Option CommentService) :
    State → List SourceCommit → Prop
  | _, [] => True
  | state, commit :: rest =>
      (commit.isMerge = true ∨ (∃ error, Unstageable source settings service commit error) ∨
        ∃ next, convert source settings service state.destination commit = (.ok (), next) ∧
          next.repository.commits ≠ state.destination.repository.commits) ∧
      ∀ next, step source settings service state commit = (.ok (), next) →
        Orderly source settings service next rest

/-- Whether a commit is sealed and stored as a new one. -/
def sealsNew (source : RevisionSource) (settings : Settings) (service : Option CommentService)
    (destination : Destination) (commit : SourceCommit) : Bool :=
  match convert source settings service destination commit with
  | (.ok (), next) => next.repository.commits != destination.repository.commits
  | _ => false

theorem convert_of_sealsNew {destination : Destination}
    (seals : sealsNew source settings service destination commit = true) :
    ∃ next, convert source settings service destination commit = (.ok (), next) ∧
      next.repository.commits ≠ destination.repository.commits := by
  unfold sealsNew at seals
  split at seals
  · rename_i next converted
    exact ⟨next, converted, bne_iff_ne.1 seals⟩
  · cases seals

section Courses

variable {state : State} {point : Point} {rest : List SourceCommit} {final : List Commit}

theorem Course.atHead (course : Course top source settings service point rest final) :
    point.AtHead top := by
  cases course <;> assumption

/-- Commits are only added. -/
theorem Course.grows (course : Course top source settings service point rest final) :
    point.commits <:+ final := by
  induction course with
  | done _ => exact List.suffix_refl _
  | ended _ _ => exact List.suffix_refl _
  | passed _ _ _ ih => exact ih
  | sealed _ _ _ seals _ ih =>
      obtain ⟨newest, grown⟩ := seals.grown
      rw [grown] at ih
      exact (List.suffix_cons _ _).trans ih

/-- **An orderly replay** has a course. -/
theorem course_of_orderly (atHead : point.AtHead top) (on : state.On top point)
    (traceable : ∀ commit ∈ rest, Traceable commit) (spares : ∀ commit ∈ rest, Spares source commit)
    (orderly : Orderly source settings service state rest) :
    ∃ final, Course top source settings service point rest final := by
  induction rest generalizing state point with
  | nil => exact ⟨_, .done atHead⟩
  | cons commit rest ih =>
      obtain ⟨fate, later⟩ := orderly
      have traceable' : ∀ commit ∈ rest, Traceable commit := fun other member =>
        traceable other (List.mem_cons_of_mem _ member)
      have spares' : ∀ commit ∈ rest, Spares source commit := fun other member =>
        spares other (List.mem_cons_of_mem _ member)
      by_cases merge : commit.isMerge = true
      · exact ⟨_, .ended atHead (Or.inl merge)⟩
      have single : commit.isMerge = false := by simpa using merge
      rcases fate with own | ⟨error, unstageable⟩ | ⟨made, converted, stored⟩
      · exact absurd own merge
      · cases fatal : error.isFatal with
        | true => exact ⟨_, .ended atHead (Or.inr ⟨error, unstageable, fatal⟩)⟩
        | false =>
            have passes : PassedOver source settings service commit :=
              ⟨single, error, unstageable, fatal⟩
            obtain ⟨next, stepped, on'⟩ := step_passedOver atHead on passes
            obtain ⟨final, course⟩ := ih atHead.restored on' traceable' spares' (later next stepped)
            exact ⟨final, .passed atHead passes course⟩
      · rw [on.same] at converted stored
        obtain ⟨tree, commits, ids, seals⟩ := atHead.convert on.keeps
          (traceable commit List.mem_cons_self) (spares commit List.mem_cons_self) converted stored
        obtain ⟨next, stepped, on'⟩ := step_seals on single seals
        obtain ⟨final, course⟩ := ih seals.atHead on' traceable' spares' (later next stepped)
        refine ⟨final, .sealed atHead single ?_ seals course⟩
        intro error unstageable
        rw [convert_unstageable unstageable] at converted
        cases converted

end Courses

end TokenBlame.Transcode
