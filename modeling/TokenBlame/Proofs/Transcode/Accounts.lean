/-
# TokenBlame.Proofs.Transcode.Accounts -- what becomes of each commit of a run

A step seals a commit on top of HEAD, or it records the commit and goes back to HEAD
(`Settles`); otherwise the run ends there (`step_settles`).  So whatever the destination is,
a run leads from its history to that history with one commit more for each commit that was
sealed, and the log has one line more for each of the others (`run_accounts`).

Names tell commits apart as far as a run goes: a commit that is made has no other commit's
name (`Unforged`).  And the paths that are replayed lead past the repository's own directory
(`Clear`).  A path that leads into it can take away the branch that HEAD names.
-/
import TokenBlame.Proofs.Destination.Core
import TokenBlame.Proofs.Git.Growth
import TokenBlame.Proofs.Transcode.Resumed

set_option autoImplicit false

namespace TokenBlame.Transcode

open Git

/-! ## Commits that are made -/

/-- A commit none of whose paths leads into the repository's own directory. -/
def Clear (commit : SourceCommit) : Prop :=
  ∀ path ∈ Plan.paths commit, Destination.Outside path

/-- The commit that a replay makes of a source commit; none if that cannot be replayed. -/
def replica? (source : RevisionSource) (settings : Settings) (service : Option CommentService)
    (destination : Destination) (commit : SourceCommit) : Option Commit :=
  match changes source settings service commit with
  | .error _ => none
  | .ok wanted =>
      match destination.stage wanted with
      | (.error _, _) => none
      | (.ok (), staged) =>
          let message := Trailer.message commit.description commit.id
          match Signature.clean settings.identity.name settings.identity.email commit.time
              commit.offsetMinutes, staged.repository.tipCommit with
          | .ok signature, .ok parent =>
              if message.toList.contains '\x00' then none
              else some (staged.nextCommit parent message signature)
          | _, _ => none

/-- A commit that is made of a source commit on top of another commit. -/
structure Replicates (settings : Settings) (commit : SourceCommit) (parent : Option Commit)
    (made : Commit) : Prop where
  parents : made.parents = (parent.map (·.id)).toList
  message : made.rawMessage = Utf8.encode (Trailer.message commit.description commit.id)
  whole : (Trailer.message commit.description commit.id).toList.contains '\x00' = false
  author : Signature.clean settings.identity.name settings.identity.email commit.time
    commit.offsetMinutes = .ok made.author
  committer : made.committer = made.author

/-- Each commit that a replay makes has a name that no other commit has. -/
def Unforged (source : RevisionSource) (settings : Settings) (service : Option CommentService) :
    State → List SourceCommit → Prop
  | _, [] => True
  | state, commit :: rest =>
      (∀ made, replica? source settings service state.destination commit = some made →
        state.destination.repository.Admits made) ∧
      ∀ next, step source settings service state commit = (.ok (), next) →
        Unforged source settings service next rest

/-- Each commit that a run makes has a name that no other commit has. -/
def RunUnforged (source : RevisionSource) (settings : Settings) (state : State) : Prop :=
  ∀ service commits completed log,
    prepare source settings state.destination = .ok (service, commits, completed) →
    state.log.start = .ok log → Unforged source settings service { state with log } commits

section Convert

variable {source : RevisionSource} {settings : Settings} {service : Option CommentService}
  {destination : Destination} {commit : SourceCommit}

/-- What is made of a source commit names what its message names. -/
theorem Replicates.source?_message {parent : Option Commit} {made : Commit}
    (replicates : Replicates settings commit parent made) :
    Trailer.source? made.message =
      Trailer.source? (Trailer.message commit.description commit.id) := by
  have kept := Trailer.source?_create made.tree made.parents made.author made.committer
    replicates.whole
  rw [← replicates.message] at kept
  exact kept

/-- What is made of a source commit names it. -/
theorem Replicates.source? {parent : Option Commit} {made : Commit}
    (replicates : Replicates settings commit parent made) (traceable : Traceable commit) :
    Trailer.source? made.message = some commit.id := by
  rw [replicates.source?_message, Trailer.source?_message _ traceable.isId, traceable.unnamed]
  rfl

/-- The next commit of a destination, with the message of a source commit. -/
theorem replicates_nextCommit (staged : Destination) {parent : Option Commit}
    {signature : Signature}
    (whole : (Trailer.message commit.description commit.id).toList.contains '\x00' = false)
    (signed : Signature.clean settings.identity.name settings.identity.email commit.time
      commit.offsetMinutes = .ok signature) :
    Replicates settings commit parent
      (staged.nextCommit parent (Trailer.message commit.description commit.id) signature) where
  parents := staged.parents_nextCommit parent _ signature
  message := staged.rawMessage_nextCommit parent _ signature
  whole := whole
  author := by rw [Destination.author_nextCommit, signed]
  committer := by rw [Destination.committer_nextCommit, Destination.author_nextCommit]

section Replica

variable {staged : Destination} {wanted : List FileChange} {error : Error}

theorem replica?_of_unreadable
    (unreadable : changes source settings service commit = .error error) :
    replica? source settings service destination commit = none := by
  rw [replica?, unreadable]

theorem replica?_of_unstaged (found : changes source settings service commit = .ok wanted)
    (put : destination.stage wanted = (.error error, staged)) :
    replica? source settings service destination commit = none := by
  rw [replica?, found]
  dsimp only
  rw [put]

/-- What was staged for a commit that is not refused is what is made of it. -/
theorem replica?_of_staged {parent : Option Commit} {signature : Signature}
    (found : changes source settings service commit = .ok wanted)
    (put : destination.stage wanted = (.ok (), staged))
    (signed : Signature.clean settings.identity.name settings.identity.email commit.time
      commit.offsetMinutes = .ok signature)
    (tip : staged.repository.tipCommit = .ok parent)
    (whole : (Trailer.message commit.description commit.id).toList.contains '\x00' = false) :
    replica? source settings service destination commit = some (staged.nextCommit parent
      (Trailer.message commit.description commit.id) signature) := by
  rw [replica?, found]
  dsimp only
  rw [put]
  dsimp only
  rw [signed, tip]
  dsimp only
  rw [whole, if_neg Bool.false_ne_true]

theorem replica?_of_refused (found : changes source settings service commit = .ok wanted)
    (put : destination.stage wanted = (.ok (), staged))
    (refused : ∀ signature parent, Signature.clean settings.identity.name settings.identity.email
        commit.time commit.offsetMinutes = .ok signature →
      staged.repository.tipCommit = .ok parent →
      (Trailer.message commit.description commit.id).toList.contains '\x00' = true) :
    replica? source settings service destination commit = none := by
  rw [replica?, found]
  dsimp only
  rw [put]
  dsimp only
  split
  · rename_i signed tip
    rw [if_pos (refused _ _ signed tip)]
  · rfl

end Replica

/-- Replaying a commit puts what is made of it on top of what HEAD is once its changes are
staged, or leaves commits and branches as they are then. -/
theorem convert_stages (source : RevisionSource) (settings : Settings)
    (service : Option CommentService) (destination : Destination) (commit : SourceCommit) :
    (∃ wanted made parent next, changes source settings service commit = .ok wanted ∧
      replica? source settings service destination commit = some made ∧
      (destination.stage wanted).2.repository.tipCommit = .ok parent ∧
      Replicates settings commit parent made ∧
      convert source settings service destination commit = (.ok (), next) ∧
      next.repository.core = ((destination.stage wanted).2.repository.advance made).core) ∨
    ∃ error next, replica? source settings service destination commit = none ∧
      convert source settings service destination commit = (.error error, next) ∧
      (next = destination ∨ ∃ wanted, changes source settings service commit = .ok wanted ∧
        next.repository.core = (destination.stage wanted).2.repository.core) := by
  cases found : changes source settings service commit with
  | error error =>
      exact Or.inr ⟨error, destination, replica?_of_unreadable found,
        convert_of_unreadable found destination, Or.inl rfl⟩
  | ok wanted =>
      rcases put : destination.stage wanted with ⟨error | done, staged⟩
      · exact Or.inr ⟨error, staged, replica?_of_unstaged found put, convert_of_unstaged found put,
          Or.inr ⟨wanted, rfl, by rw [put]⟩⟩
      rcases staged.commitIndex_cases (Trailer.message commit.description commit.id)
        settings.identity commit.time commit.offsetMinutes with
        ⟨signature, parent, signed, tip, whole, committed⟩ | ⟨refused, fault, failed⟩
      · refine Or.inl ⟨wanted, _, parent, _, rfl, replica?_of_staged found put signed tip whole, ?_,
          replicates_nextCommit staged whole signed,
          (convert_of_staged found put).trans (sealStaged_of_ok committed), ?_⟩
        · rw [put]
          exact tip
        · rw [put]
          rfl
      · refine Or.inr ⟨_, staged.uncommitted, replica?_of_refused found put refused,
          (convert_of_staged found put).trans (sealStaged_of_error failed), Or.inr ⟨wanted, rfl, ?_⟩⟩
        rw [put]
        rfl

/-- **Replaying a commit** puts what is made of it on top of HEAD, or leaves commits and
branches alone. -/
theorem convert_cases (clear : Clear commit) :
    (∃ made parent next, replica? source settings service destination commit = some made ∧
      destination.repository.tipCommit = .ok parent ∧ Replicates settings commit parent made ∧
      convert source settings service destination commit = (.ok (), next) ∧
      next.repository.core = (destination.repository.advance made).core) ∨
    ∃ error next, replica? source settings service destination commit = none ∧
      convert source settings service destination commit = (.error error, next) ∧
      next.repository.core = destination.repository.core := by
  have kept : ∀ wanted, changes source settings service commit = .ok wanted →
      (destination.stage wanted).2.repository.core = destination.repository.core :=
    fun wanted found => Destination.core_stage fun change member =>
      clear _ (path_mem_of_changes found change member)
  rcases convert_stages source settings service destination commit with
    ⟨wanted, made, parent, next, found, own, tip, replicates, converted, advanced⟩ |
    ⟨error, next, none, failed, rfl | ⟨wanted, found, same⟩⟩
  · rw [Repository.tipCommit_of_core (kept wanted found)] at tip
    exact Or.inl ⟨made, parent, next, own, tip, replicates, converted,
      advanced.trans (Repository.core_advance (kept wanted found) made)⟩
  · exact Or.inr ⟨error, next, none, failed, rfl⟩
  · exact Or.inr ⟨error, next, none, failed, same.trans (kept wanted found)⟩

/-- A commit that is stored as a new one has a name of its own. -/
theorem admits_of_fresh (clear : Clear commit)
    (fresh : ∀ next, convert source settings service destination commit = (.ok (), next) →
      next.repository.commits ≠ destination.repository.commits) {made : Commit}
    (own : replica? source settings service destination commit = some made) :
    destination.repository.Admits made := by
  rcases @convert_cases source settings service destination commit clear with
    ⟨other, parent, next, same, -, -, converted, advanced⟩ | ⟨error, next, none, -⟩
  · cases own.symm.trans same
    have stored := fresh next converted
    rw [(Repository.core_eq_iff.1 advanced).1] at stored
    exact fun other member eq => absurd eq (fresh_of_advance stored other member)
  · rw [none] at own
    cases own

end Convert

/-! ## Fates -/

/-- What becomes of a source commit: the commit that is made of it, if there is one. -/
structure Fate where
  commit : SourceCommit
  made : Option Commit

/-- The commits that were made. -/
def Fate.sealed (fates : List Fate) : List Commit :=
  fates.filterMap (·.made)

/-- The source commits that no commit was made of. -/
def Fate.unsealed (fates : List Fate) : List SourceCommit :=
  (fates.filter fun fate => fate.made.isNone).map (·.commit)

/-- What a step leads to that does not end the run: a commit on top of HEAD, or a line more
in the log. -/
inductive Settles (settings : Settings) (before : State) : Fate → State → Prop where
  | sealed {commit : SourceCommit} {made : Commit} {parent : Option Commit} {next : State} :
      before.destination.repository.tipCommit = .ok parent →
      Replicates settings commit parent made →
      before.destination.repository.Admits made →
      next.destination.repository.core = (before.destination.repository.advance made).core →
      next.log = before.log →
      Settles settings before ⟨commit, some made⟩ next
  | recorded {commit : SourceCommit} {next : State} :
      next.destination.repository.core = before.destination.repository.core →
      next.log = before.log.record commit →
      Settles settings before ⟨commit, none⟩ next

/-- What steps lead to, one after the other. -/
inductive Settled (settings : Settings) : State → List Fate → State → Prop where
  | done {state next : State} :
      next.destination.repository.core = state.destination.repository.core →
      next.log = state.log → Settled settings state [] next
  | step {state middle next : State} {fate : Fate} {fates : List Fate} :
      Settles settings state fate middle → Settled settings middle fates next →
      Settled settings state (fate :: fates) next

/-- Why a replay ends with an error: a fatal one at the next commit, or no way back to HEAD
after the last one, which was recorded. -/
def Stops (error : Error) (fates : List Fate) (rest : List SourceCommit) (next : State) : Prop :=
  (error.isFatal = true ∧ rest ≠ []) ∨
    (∃ commit, fates.getLast? = some ⟨commit, none⟩) ∧
      ∃ destination : Destination, destination.resetToHead = (.error error, next.destination)

section Steps

variable {source : RevisionSource} {settings : Settings} {service : Option CommentService}
  {state : State} {commit : SourceCommit}

/-- Setting a commit back adds its line to the log and leaves the history alone, whether HEAD
can be checked out or not. -/
theorem setBack_records (state : State) (commit : SourceCommit) :
    ∃ result next, setBack state commit = (result, next) ∧
      next.destination.repository.core = state.destination.repository.core ∧
      next.log = state.log.record commit ∧
      (result = .ok () ∨ ∃ error, result = .error error ∧
        ∃ destination : Destination, destination.resetToHead = (.error error, next.destination)) := by
  have kept := Destination.repository_resetToHead (state.record commit).destination
  cases back : (state.record commit).destination.resetToHead with
  | mk result destination =>
      rw [back] at kept
      refine ⟨result, { state.record commit with destination }, setBack_of_reset back,
        congrArg Repository.core kept, rfl, ?_⟩
      cases result with
      | ok done => exact Or.inl rfl
      | error error => exact Or.inr ⟨error, rfl, _, back⟩

/-- **A step** settles a commit, or it ends the run and leaves history and log alone. -/
theorem step_settles (clear : Clear commit)
    (admits : ∀ made, replica? source settings service state.destination commit = some made →
      state.destination.repository.Admits made) :
    ∃ result next, step source settings service state commit = (result, next) ∧
      ((∃ made, Settles settings state ⟨commit, made⟩ next ∧
        (result = .ok () ∨ ∃ error, result = .error error ∧ made = none ∧
          ∃ destination : Destination, destination.resetToHead = (.error error, next.destination))) ∨
      ∃ error, result = .error error ∧ error.isFatal = true ∧
        next.destination.repository.core = state.destination.repository.core ∧
        next.log = state.log) := by
  cases single : commit.isMerge with
  | true => exact ⟨_, state, step_of_merge single state, Or.inr ⟨_, rfl, rfl, rfl, rfl⟩⟩
  | false =>
      rcases @convert_cases source settings service state.destination commit clear with
        ⟨made, parent, next, own, tip, replicates, converted, advanced⟩ |
        ⟨error, next, -, failed, kept⟩
      · exact ⟨_, _, step_of_sealed single converted, Or.inl ⟨some made,
          .sealed tip replicates (admits made own) advanced rfl, Or.inl rfl⟩⟩
      cases fatal : error.isFatal with
      | true =>
          exact ⟨_, _, step_of_fatal single failed fatal, Or.inr ⟨error, rfl, fatal, kept, rfl⟩⟩
      | false =>
          obtain ⟨result, last, back, same, added, outcome⟩ :=
            setBack_records { state with destination := next } commit
          refine ⟨result, last, (step_of_mild single failed fatal).trans back,
            Or.inl ⟨none, .recorded (same.trans kept) added, ?_⟩⟩
          exact outcome.imp_right fun ⟨error, failed, reset⟩ => ⟨error, failed, rfl, reset⟩

/-- **A replay** settles one commit after the other, up to the one where it ends. -/
theorem replay_settles {todo : List SourceCommit} (clear : ∀ commit ∈ todo, Clear commit)
    (unforged : Unforged source settings service state todo) :
    ∃ result next fates rest, replay source settings service state todo = (result, next) ∧
      todo = fates.map (·.commit) ++ rest ∧ Settled settings state fates next ∧
      (result = .ok () ∧ rest = [] ∨
        ∃ error, result = .error error ∧ Stops error fates rest next) := by
  induction todo generalizing state with
  | nil => exact ⟨_, state, [], [], rfl, rfl, .done rfl rfl, Or.inl ⟨rfl, rfl⟩⟩
  | cons commit todo ih =>
      obtain ⟨admits, later⟩ := unforged
      obtain ⟨result, next, stepped, outcome⟩ :=
        step_settles (clear commit List.mem_cons_self) admits
      rcases outcome with ⟨made, settles, rfl | ⟨error, rfl, rfl, back⟩⟩ |
        ⟨error, rfl, fatal, kept, same⟩
      · obtain ⟨result, last, fates, rest, replayed, rfl, settled, ends⟩ :=
          ih (fun c member => clear c (List.mem_cons_of_mem _ member)) (later next stepped)
        refine ⟨result, last, ⟨commit, made⟩ :: fates, rest,
          (replay_of_ok stepped _).trans replayed, rfl, .step settles settled, ?_⟩
        rcases ends with finished | ⟨error, same, stops⟩
        · exact Or.inl finished
        refine Or.inr ⟨error, same, stops.imp_right ?_⟩
        rintro ⟨⟨c, last⟩, back⟩
        refine ⟨⟨c, ?_⟩, back⟩
        rw [List.getLast?_cons, last]
        rfl
      · exact ⟨_, next, [⟨commit, none⟩], todo, replay_of_error stepped _, rfl,
          .step settles (.done rfl rfl), Or.inr ⟨error, rfl, Or.inr ⟨⟨commit, rfl⟩, back⟩⟩⟩
      · exact ⟨_, next, [], commit :: todo, replay_of_error stepped _, rfl, .done kept same,
          Or.inr ⟨error, rfl, Or.inl ⟨fatal, List.cons_ne_nil _ _⟩⟩⟩

end Steps

/-! ## Accounts -/

/-- Commits, oldest first, each with the one before it as its only parent. -/
def Stacked : Option Commit → List Commit → Prop
  | _, [] => True
  | parent, made :: rest => made.parents = (parent.map (·.id)).toList ∧ Stacked (some made) rest

section Settled

variable {settings : Settings} {before after next : State} {fate : Fate} {fates : List Fate}

theorem Settled.replicates (settled : Settled settings before fates after) :
    ∀ fate ∈ fates, ∀ made, fate.made = some made →
      ∃ parent, Replicates settings fate.commit parent made := by
  induction settled with
  | done => exact fun fate member => absurd member List.not_mem_nil
  | step settles _ ih =>
      intro fate member made own
      rcases List.mem_cons.1 member with rfl | later
      · cases settles with
        | sealed tip replicates admits advanced kept =>
            cases own
            exact ⟨_, replicates⟩
        | recorded kept added => cases own
      · exact ih fate later made own

theorem Settled.log (settled : Settled settings before fates after) {text : String}
    (old : before.log = .text text) :
    after.log = .text (text ++ String.join ((Fate.unsealed fates).map ErrorLog.line)) := by
  induction settled generalizing text with
  | done kept same =>
      rw [same, old]
      exact congrArg ErrorLog.text (by simp [Fate.unsealed])
  | step settles _ ih =>
      cases settles with
      | sealed tip replicates admits advanced kept => exact ih (kept.trans old)
      | recorded kept added =>
          rw [old] at added
          rw [ih added]
          exact congrArg ErrorLog.text (by simp [Fate.unsealed, String.append_assoc])

/-- **Sealed commits** stand on top of the old history, one on top of the other. -/
theorem Settled.history (settled : Settled settings before fates after)
    (grown : Grown before.destination.repository.commits) {parent : Option Commit}
    (tip : before.destination.repository.tipCommit = .ok parent) :
    after.destination.repository.history =
        before.destination.repository.history ++ Fate.sealed fates ∧
      Stacked parent (Fate.sealed fates) ∧ Grown after.destination.repository.commits := by
  induction settled generalizing parent with
  | done kept same =>
      refine ⟨?_, trivial, ?_⟩
      · rw [Repository.history_of_core kept]
        exact (List.append_nil _).symm
      · rw [(Repository.core_eq_iff.1 kept).1]
        exact grown
  | step settles _ ih =>
      cases settles with
      | sealed tip' replicates admits advanced kept =>
          cases tip.symm.trans tip'
          have grown' := grown_advance grown tip replicates.parents
          have first := history_advance grown tip replicates.parents admits
          obtain ⟨longer, stacked, last⟩ := ih
            (by rw [(Repository.core_eq_iff.1 advanced).1]; exact grown')
            (by rw [Repository.tipCommit_of_core advanced]; exact tipCommit_advance admits)
          rw [Repository.history_of_core advanced, first, List.append_assoc] at longer
          exact ⟨longer, ⟨replicates.parents, stacked⟩, last⟩
      | recorded kept added =>
          obtain ⟨longer, stacked, grown'⟩ := ih
            (by rw [(Repository.core_eq_iff.1 kept).1]; exact grown)
            (by rw [Repository.tipCommit_of_core kept]; exact tip)
          rw [Repository.history_of_core kept] at longer
          exact ⟨longer, stacked, grown'⟩

end Settled

/-! ## Runs -/

section Runs

variable {source : RevisionSource} {settings : Settings} {state : State}

theorem log_of_start {log opened : ErrorLog} (opens : log.start = .ok opened) :
    opened = .text (log.content?.getD "") := by
  cases log with
  | absent =>
      cases opens
      rfl
  | text content =>
      cases opens
      rfl
  | blocked reason => cases opens

/-- **A run** settles one commit after the other, up to the one where it ends. -/
theorem run_settles {service : Option CommentService} {commits : List SourceCommit}
    {completed : Bool} {log : ErrorLog}
    (clear : ∀ commit ∈ commits, Clear commit) (unforged : RunUnforged source settings state)
    (prepared : prepare source settings state.destination = .ok (service, commits, completed))
    (opens : state.log.start = .ok log) :
    ∃ result next fates rest,
      replay source settings service { state with log } commits = (result, next) ∧
      run source settings state = (result.map fun _ => completed, next) ∧
      commits = fates.map (·.commit) ++ rest ∧ Settled settings { state with log } fates next ∧
      (result = .ok () ∧ rest = [] ∨
        ∃ error, result = .error error ∧ Stops error fates rest next) := by
  obtain ⟨result, next, fates, rest, replayed, whole, settled, outcome⟩ :=
    replay_settles clear (unforged service commits completed log prepared opens)
  exact ⟨result, next, fates, rest, replayed, run_of_replay prepared opens replayed, whole,
    settled, outcome⟩

end Runs

namespace TwoCommits

theorem prepared : prepare source {} state.destination = .ok (none, commits, true) := rfl

theorem clear (commit : SourceCommit) (member : commit ∈ commits) : Clear commit := by
  have only : ∀ commit ∈ commits, Plan.paths commit = ["a"] := by decide
  intro path inside
  rw [only commit member, List.mem_singleton] at inside
  rw [inside]
  decide

theorem unforged : RunUnforged source {} state := by
  intro service todo completed log planned opens
  rw [prepared] at planned
  cases planned
  -- the store is empty at first, and nothing is made of the second commit
  exact ⟨fun made _ other member => absurd member List.not_mem_nil,
    fun next _ => ⟨fun made own => (nomatch own), fun _ _ => trivial⟩⟩

end TwoCommits

end TokenBlame.Transcode
