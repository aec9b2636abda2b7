/-
# TokenBlame.Proofs.Transcode.Twins -- states that no run tells apart

Two sound destinations of one history, on top of the same commit, may have different disks,
and different contents and trees stored that no commit has (`Paired`).  What a run tells apart
is what is staged in them.  If the changes of a commit lead to the same files in both, a step
for it has one result, and the same lines are added to both logs (`Abreast.step`).

So with the same files staged (`Twins`) no step tells two states apart (`Twins.step`), and no
replay does (`Twins.replay`).

Whether a commit is sealed shows in the destination, so names must tell apart the commits
that are made, and a commit that fails must not be in the way of the later ones: its paths can
be staged, and as long as there is no commit at HEAD it leaves nothing staged (`Recovers`).
-/
import TokenBlame.Proofs.Transcode.Sound

set_option autoImplicit false

namespace TokenBlame.Transcode

open Git

/-- Why no commit is made of a source commit, whatever was staged; none if one is made. -/
def refusal? (settings : Settings) (commit : SourceCommit) : Option GitFault :=
  match Signature.clean settings.identity.name settings.identity.email commit.time
      commit.offsetMinutes with
  | .error fault => some fault
  | .ok _ =>
      if (Trailer.message commit.description commit.id).toList.contains '\x00' then
        some .embeddedNul
      else none

section Conditions

variable (source : RevisionSource) (settings : Settings)

section Commits

variable (service : Option CommentService)

/-- If nothing is wrong with a commit, its paths can be staged. -/
def Stages (destination : Destination) (commit : SourceCommit) : Prop :=
  (∀ error, ¬ Unstageable source settings service commit error) →
    ∀ path ∈ Plan.paths commit, destination.Stageable path

/-- As long as there is no commit at HEAD, a commit that fails leaves nothing staged. -/
def LeavesNothing (destination : Destination) (commit : SourceCommit) : Prop :=
  destination.repository.tipCommit = .ok none → ∀ error next,
    convert source settings service destination commit = (.error error, next) →
      error.isFatal = false → next.index = ∅

/-- Where a commit of a replay fails, there is a way back. -/
def Recovers : State → List SourceCommit → Prop
  | _, [] => True
  | state, commit :: rest =>
      Stages source settings service state.destination commit ∧
      LeavesNothing source settings service state.destination commit ∧
      ∀ next, step source settings service state commit = (.ok (), next) → Recovers next rest

end Commits

/-- So it is in a run. -/
def RunRecovers (state : State) : Prop :=
  ∀ service commits completed log,
    prepare source settings state.destination = .ok (service, commits, completed) →
    state.log.start = .ok log → Recovers source settings service { state with log } commits

end Conditions

/-- Two sound destinations of one history, on top of the same commit. -/
structure Paired (parent : Option Commit) (a b : Destination) : Prop where
  left : Sound a parent
  right : Sound b parent
  alike : Destination.Alike a b

/-- What was staged in two destinations is saved. -/
def BothSaved (a b : Destination) : Prop :=
  a.saved = a.index ∧ b.saved = b.index

/-- Two states with paired destinations, in which all is saved. -/
structure Abreast (parent : Option Commit) (a b : State) : Prop where
  paired : Paired parent a.destination b.destination
  saved : BothSaved a.destination b.destination
  apart : a.Apart ∧ b.Apart

/-- Two such states with the same files staged. -/
structure Twins (parent : Option Commit) (a b : State) : Prop extends Abreast parent a b where
  index : b.destination.index = a.destination.index

/-- Changes can be made to both of two snapshots or to neither, and they lead to the same one. -/
def Meets (tree other : Snapshot) (changes : List FileChange) : Prop :=
  (tree.TakesAll changes ↔ other.TakesAll changes) ∧
    (tree.TakesAll changes → other.changeAll changes = tree.changeAll changes)

/-- What a commit changes leads from two snapshots to the same one. -/
def MeetsAt (source : RevisionSource) (settings : Settings) (service : Option CommentService)
    (tree other : Snapshot) (commit : SourceCommit) : Prop :=
  ∀ wanted, changes source settings service commit = .ok wanted →
    FileChange.checkAll wanted = .ok () → Meets tree other (FileChange.removalsFirst wanted)

/-- The same commits were recorded in both logs. -/
def SameLines (a a' b b' : State) : Prop :=
  ∃ commits : List SourceCommit, a'.log = commits.foldl ErrorLog.record a.log ∧
    b'.log = commits.foldl ErrorLog.record b.log

section Twins

variable {source : RevisionSource} {settings : Settings} {service : Option CommentService}
  {parent : Option Commit} {commit : SourceCommit}

/-! ## One commit -/

section Convert

variable {a b staged : Destination} {wanted : List FileChange}

/-- Destinations that were alike before changes are alike behind them. -/
theorem alike_behind {a' b' : Destination} (alike : Destination.Alike a b)
    (one : Destination.Alike a a') (other : Destination.Alike b b') : Destination.Alike a' b' :=
  ⟨by rw [other.home, one.home, alike.home], by rw [other.bare, one.bare, alike.bare],
    by rw [other.core, one.core, alike.core]⟩

theorem admits_of_core {a b : Repository} (core : b.core = a.core) {made : Commit}
    (admits : a.Admits made) : b.Admits made := by
  intro other member
  rw [(Repository.core_eq_iff.1 core).1] at member
  exact admits other member

theorem Meets.of_eq {tree other : Snapshot} (same : other = tree) (changes : List FileChange) :
    Meets tree other changes := by
  subst same
  exact ⟨Iff.rfl, fun _ => rfl⟩

/-- **Changes** are staged in both destinations, which then have the same files staged, or in
neither. -/
theorem Paired.stage (paired : Paired parent a b)
    (stageable : ∀ change ∈ wanted, a.Stageable change.path)
    (meets : Meets a.index b.index (FileChange.removalsFirst wanted)) :
    (∃ a' b', a.stage wanted = (.ok (), a') ∧ b.stage wanted = (.ok (), b') ∧
      Paired parent a' b' ∧ b'.index = a'.index ∧ BothSaved a' b' ∧ Destination.Alike a a') ∨
    ∃ errorA errorB a' b', a.stage wanted = (.error errorA, a') ∧
      b.stage wanted = (.error errorB, b') ∧ errorA.isFatal = false ∧ errorB.isFatal = false ∧
      Paired parent a' b' ∧ Destination.Alike a a' ∧
      (b.index = a.index → b'.index = a'.index) := by
  obtain ⟨left, right, alike⟩ := paired
  have stageable' : ∀ change ∈ wanted, b.Stageable change.path := fun change member =>
    (stageable change member).of_alike alike
  by_cases takes : a.index.TakesAll (FileChange.removalsFirst wanted)
  · obtain ⟨a', putA, soundA, alikeA, indexA, savedA⟩ := left.stage stageable takes
    obtain ⟨b', putB, soundB, alikeB, indexB, savedB⟩ := right.stage stageable' (meets.1.1 takes)
    exact Or.inl ⟨a', b', putA, putB, ⟨soundA, soundB, alike_behind alike alikeA alikeB⟩,
      by rw [indexA, indexB, meets.2 takes],
      ⟨savedA.trans indexA.symm, savedB.trans indexB.symm⟩, alikeA⟩
  · obtain ⟨errorA, a', front, failed, mild, stops, soundA, alikeA, indexA⟩ :=
      left.stage_stops stageable takes
    obtain ⟨errorB, b', front', failed', mild', stops', soundB, alikeB, indexB⟩ :=
      right.stage_stops stageable' (mt meets.1.2 takes)
    refine Or.inr ⟨errorA, errorB, a', b', failed, failed', mild, mild',
      ⟨soundA, soundB, alike_behind alike alikeA alikeB⟩, alikeA, fun index => ?_⟩
    rw [index] at stops' indexB
    cases stops.unique stops'
    exact indexB.trans indexA.symm

/-- A commit that can be staged has changes, none of which leads out of the working tree. -/
theorem changes_of_stageable (well : ∀ error, ¬ Unstageable source settings service commit error) :
    ∃ wanted, changes source settings service commit = .ok wanted ∧
      FileChange.checkAll wanted = .ok () := by
  cases found : changes source settings service commit with
  | error error =>
      refine absurd ?_ (well error)
      unfold Unstageable
      rw [found]
      rfl
  | ok wanted =>
      refine ⟨wanted, rfl, ?_⟩
      cases checked : FileChange.checkAll wanted with
      | ok done => rfl
      | error error =>
          refine absurd ?_ (well error)
          unfold Unstageable
          rw [found]
          exact checked

/-- What was staged is committed, or it stays staged; which of the two does not depend on what
it is. -/
theorem Sound.sealStaged (sound : Sound staged parent) (settings : Settings)
    (commit : SourceCommit) :
    (∃ signature,
      (refusal? settings commit = none ∧
        Signature.clean settings.identity.name settings.identity.email commit.time
          commit.offsetMinutes = .ok signature ∧
        (Trailer.message commit.description commit.id).toList.contains '\x00' = false) ∧
      Transcode.sealStaged settings staged commit =
        (.ok (), staged.withRepository (staged.repository.advance
          (staged.nextCommit parent (Trailer.message commit.description commit.id) signature)))) ∨
    ∃ fault, refusal? settings commit = some fault ∧
      Transcode.sealStaged settings staged commit = (.error (.sealing commit.id fault),
        staged.uncommitted) := by
  unfold refusal?
  cases signed : Signature.clean settings.identity.name settings.identity.email commit.time
      commit.offsetMinutes with
  | error fault =>
      exact Or.inr ⟨fault, rfl, sealStaged_of_error (Destination.commitIndex_of_unsigned signed)⟩
  | ok signature =>
      cases nul : (Trailer.message commit.description commit.id).toList.contains '\x00' with
      | true =>
          exact Or.inr ⟨_, rfl,
            sealStaged_of_error (Destination.commitIndex_of_nul signed sound.tip nul)⟩
      | false =>
          exact Or.inl ⟨signature, ⟨rfl, rfl, rfl⟩,
            sealStaged_of_ok (Destination.commitIndex_of_whole signed sound.tip nul)⟩

/-- **What was staged** in the same way is sealed in the same way, or in neither destination. -/
theorem Paired.sealStaged (paired : Paired parent a b) (index : b.index = a.index)
    (saved : BothSaved a b) (settings : Settings) (commit : SourceCommit)
    (admits : ∀ signature, Signature.clean settings.identity.name settings.identity.email
        commit.time commit.offsetMinutes = .ok signature →
      (Trailer.message commit.description commit.id).toList.contains '\x00' = false →
      a.repository.Admits (a.nextCommit parent
        (Trailer.message commit.description commit.id) signature)) :
    (∃ made a' b', Transcode.sealStaged settings a commit = (.ok (), a') ∧
      Transcode.sealStaged settings b commit = (.ok (), b') ∧ Paired (some made) a' b' ∧
      b'.index = a'.index ∧ BothSaved a' b' ∧ a'.home = a.home ∧ a'.index = made.tree) ∨
    ∃ error a' b', Transcode.sealStaged settings a commit = (.error error, a') ∧
      Transcode.sealStaged settings b commit = (.error error, b') ∧ Paired parent a' b' ∧
      b'.index = a'.index ∧ BothSaved a' b' ∧ Destination.Alike a a' := by
  obtain ⟨left, right, alike⟩ := paired
  rcases left.sealStaged settings commit with
    ⟨signature, ⟨free, signed, whole⟩, made⟩ | ⟨fault, refused, failed⟩
  · rcases right.sealStaged settings commit with
      ⟨signature', ⟨-, signed', -⟩, also⟩ | ⟨fault, refused, -⟩
    swap
    · rw [free] at refused
      cases refused
    cases signed.symm.trans signed'
    have same : b.nextCommit parent (Trailer.message commit.description commit.id) signature =
        a.nextCommit parent (Trailer.message commit.description commit.id) signature := by
      unfold Destination.nextCommit
      rw [index]
    have admitted := admits signature signed whole
    have parents := a.parents_nextCommit parent
      (Trailer.message commit.description commit.id) signature
    have tree : (a.nextCommit parent (Trailer.message commit.description commit.id)
      signature).tree = a.index := rfl
    rw [made, also, same]
    generalize a.nextCommit parent (Trailer.message commit.description commit.id) signature =
      newest at admitted parents tree
    exact Or.inl ⟨newest, _, _, rfl, rfl,
      ⟨left.advance tree parents admitted,
        right.advance (tree.trans index.symm) parents (admits_of_core alike.core admitted),
        ⟨alike.home, alike.bare, Repository.core_advance alike.core newest⟩⟩, index,
      saved, rfl, tree.symm⟩
  · rcases right.sealStaged settings commit with
      ⟨-, ⟨free, -, -⟩, -⟩ | ⟨fault', refused', failed'⟩
    · rw [refused] at free
      cases free
    cases refused.symm.trans refused'
    exact Or.inr ⟨_, _, _, failed, failed',
      ⟨left.stored rfl, right.stored rfl, ⟨alike.home, alike.bare, alike.core⟩⟩, index, saved,
      ⟨rfl, rfl, rfl⟩⟩

/-- **A commit** is replayed in the same way on paired destinations if its changes lead to the
same files.  Only where staging stops part-way may the errors differ. -/
theorem Paired.convert (paired : Paired parent a b) (saved : BothSaved a b)
    (stages : Stages source settings service a commit)
    (meets : MeetsAt source settings service a.index b.index commit)
    (admits : ∀ made, replica? source settings service a commit = some made →
      a.repository.Admits made) :
    (∃ made a' b', Transcode.convert source settings service a commit = (.ok (), a') ∧
      Transcode.convert source settings service b commit = (.ok (), b') ∧
      Paired (some made) a' b' ∧ b'.index = a'.index ∧ BothSaved a' b' ∧ a'.home = a.home ∧
      a'.index = made.tree) ∨
    ∃ errorA errorB a' b',
      Transcode.convert source settings service a commit = (.error errorA, a') ∧
      Transcode.convert source settings service b commit = (.error errorB, b') ∧
      Paired parent a' b' ∧ Destination.Alike a a' ∧ (b.index = a.index → b'.index = a'.index) ∧
      (errorA.isFatal = false ∧ errorB.isFatal = false ∨ errorB = errorA ∧ BothSaved a' b' ∧
        (b'.index = a'.index ∨ Unstageable source settings service commit errorA)) := by
  by_cases well : ∀ error, ¬ Unstageable source settings service commit error
  swap
  · obtain ⟨error, unstageable⟩ : ∃ error, Unstageable source settings service commit error := by
      simpa using well
    exact Or.inr ⟨error, error, a, b, convert_unstageable unstageable a,
      convert_unstageable unstageable b, paired, .refl a, id, Or.inr ⟨rfl, saved, Or.inr unstageable⟩⟩
  obtain ⟨wanted, found, checked⟩ := changes_of_stageable well
  rcases paired.stage (fun change member =>
      stages well _ (path_mem_of_changes found change member)) (meets wanted found checked) with
    ⟨a', b', putA, putB, paired', index', saved', alike⟩ |
    ⟨errorA, errorB, a', b', failedA, failedB, mildA, mildB, paired', alike, index'⟩
  · rw [convert_of_staged found putA, convert_of_staged found putB]
    rcases paired'.sealStaged index' saved' settings commit
        (fun signature signed whole => admits_of_core alike.core
          (admits _ (replica?_of_staged found putA signed paired'.left.tip whole))) with
      ⟨made, a'', b'', done, done', paired'', index'', saved'', home, tree⟩ |
      ⟨error, a'', b'', failed, failed', paired'', index'', saved'', alike'⟩
    · exact Or.inl ⟨made, a'', b'', done, done', paired'', index'', saved'',
        home.trans alike.home, tree⟩
    · exact Or.inr ⟨error, error, a'', b'', failed, failed', paired'', alike.trans alike',
        fun _ => index'', Or.inr ⟨rfl, saved'', Or.inl index''⟩⟩
  · exact Or.inr ⟨errorA, errorB, a', b', convert_of_unstaged found failedA,
      convert_of_unstaged found failedB, paired', alike, index', Or.inl ⟨mildA, mildB⟩⟩

/-- With the same files staged nothing is left over in one destination that is not in the
other. -/
theorem Paired.leavesNothing (paired : Paired parent a b) (index : b.index = a.index)
    (saved : BothSaved a b) (stages : Stages source settings service a commit)
    (admits : ∀ made, replica? source settings service a commit = some made →
      a.repository.Admits made)
    (leaves : LeavesNothing source settings service a commit) :
    LeavesNothing source settings service b commit := by
  intro unborn error next failed mild
  have unbornA : a.repository.tipCommit = .ok none := by
    rw [← Repository.tipCommit_of_core paired.alike.core, unborn]
  rcases paired.convert saved stages (fun _ _ _ => .of_eq index _) admits with
    ⟨_, _, _, -, done, -⟩ | ⟨errorA, errorB, a', b', failedA, failedB, -, -, index', outcome⟩
  · rw [failed] at done
    cases done
  rw [failed] at failedB
  cases failedB
  have mildA : errorA.isFatal = false := by
    rcases outcome with ⟨mildA, -⟩ | ⟨rfl, -⟩
    · exact mildA
    · exact mild
  rw [index' index, leaves unbornA errorA a' failedA mildA]

end Convert

/-! ## Steps -/

section Steps

variable {a b : State} {todo : List SourceCommit}

/-- Lines that are recorded in an open log stand behind what is in it. -/
theorem foldl_record (commits : List SourceCommit) (text : String) :
    commits.foldl ErrorLog.record (.text text) =
      .text (text ++ String.join (commits.map ErrorLog.line)) := by
  induction commits generalizing text with
  | nil => simp
  | cons commit commits ih =>
      rw [List.foldl_cons]
      show commits.foldl ErrorLog.record (.text (text ++ ErrorLog.line commit)) = _
      rw [ih, List.map_cons, String.join_cons, String.append_assoc]

theorem SameLines.refl (a b : State) : SameLines a a b b :=
  ⟨[], rfl, rfl⟩

theorem SameLines.trans {a' a'' b' b'' : State} (first : SameLines a a' b b')
    (second : SameLines a' a'' b' b'') : SameLines a a'' b b'' := by
  obtain ⟨one, oneA, oneB⟩ := first
  obtain ⟨two, twoA, twoB⟩ := second
  exact ⟨one ++ two, by rw [List.foldl_append, ← oneA, twoA],
    by rw [List.foldl_append, ← oneB, twoB]⟩

/-- A log stays apart as long as the working tree stays where it is. -/
theorem State.Apart.of_home {state : State} (apart : state.Apart) {next : Destination}
    (home : next.home = state.destination.home) : State.Apart { state with destination := next } := by
  intro place own
  show ¬ next.top <+: place
  rw [Destination.top_congr home]
  exact apart place own

/-- Destinations that stay where they are stay apart from the logs. -/
theorem Abreast.apart_of_home (abreast : Abreast parent a b) {parent' : Option Commit}
    {a' b' : Destination} (paired : Paired parent' a' b') (home : a'.home = a.destination.home) :
    State.Apart { a with destination := a' } ∧ State.Apart { b with destination := b' } :=
  ⟨abreast.apart.1.of_home home,
    abreast.apart.2.of_home (by rw [paired.alike.home, home, abreast.paired.alike.home])⟩

/-- **A commit that failed** in both of two states is recorded in both, and they go back to
the same files. -/
theorem Paired.setBack (paired : Paired parent a.destination b.destination)
    (apart : a.Apart ∧ b.Apart)
    (unborn : parent = none → a.destination.index = ∅ ∧ b.destination.index = ∅)
    (commit : SourceCommit) :
    ∃ a' b', Transcode.setBack a commit = (.ok (), a') ∧ Transcode.setBack b commit = (.ok (), b') ∧
      Twins parent a' b' ∧ SameLines a a' b b' ∧ a'.destination.index = headFiles parent := by
  obtain ⟨left, right, alike⟩ := paired
  obtain ⟨a', backA, soundA, alikeA, indexA, savedA, logA, placeA⟩ :=
    left.setBack a apart.1 (fun none => (unborn none).1) commit
  obtain ⟨b', backB, soundB, alikeB, indexB, savedB, logB, placeB⟩ :=
    right.setBack b apart.2 (fun none => (unborn none).2) commit
  refine ⟨a', b', backA, backB, ⟨⟨⟨soundA, soundB, alike_behind alike alikeA alikeB⟩,
    ⟨savedA.trans indexA.symm, savedB.trans indexB.symm⟩, ?_, ?_⟩, indexB.trans indexA.symm⟩,
    ⟨[commit], logA, logB⟩, indexA⟩
  · intro place own
    rw [alikeA.top]
    exact apart.1 place (placeA ▸ own)
  · intro place own
    rw [alikeB.top]
    exact apart.2 place (placeB ▸ own)

theorem Paired.symm {a b : Destination} (paired : Paired parent a b) : Paired parent b a :=
  ⟨paired.right, paired.left, paired.alike.symm⟩

theorem Twins.symm (twins : Twins parent a b) : Twins parent b a :=
  ⟨⟨twins.paired.symm, twins.saved.symm, twins.apart.symm⟩, twins.index.symm⟩

/-- **A step** has one result in two states if what the commit changes leads to the same files.
If it could be staged, or if the same files were staged before, it leads to twins. -/
theorem Abreast.step (abreast : Abreast parent a b)
    (stages : Stages source settings service a.destination commit)
    (meets : MeetsAt source settings service a.destination.index b.destination.index commit)
    (leaves : LeavesNothing source settings service a.destination commit)
    (leaves' : LeavesNothing source settings service b.destination commit)
    (admits : ∀ made, replica? source settings service a.destination commit = some made →
      a.destination.repository.Admits made) :
    ∃ result a' b' parent', Transcode.step source settings service a commit = (result, a') ∧
      Transcode.step source settings service b commit = (result, b') ∧ Abreast parent' a' b' ∧
      SameLines a a' b b' ∧ (result = .ok () → a'.destination.index = headFiles parent') ∧
      (b.destination.index = a.destination.index ∨ commit.isMerge = false ∧
          (∀ error, Unstageable source settings service commit error → error.isFatal = false) →
        b'.destination.index = a'.destination.index) := by
  cases single : commit.isMerge with
  | true =>
      refine ⟨_, a, b, parent, step_of_merge single a, step_of_merge single b, abreast, .refl a b,
        fun done => (nomatch done), ?_⟩
      rintro (index | ⟨⟨⟩, -⟩)
      exact index
  | false =>
      rcases abreast.paired.convert abreast.saved stages meets admits with
        ⟨made, a', b', convertedA, convertedB, paired, index, saved, home, tree⟩ |
        ⟨errorA, errorB, a', b', failedA, failedB, paired, alike, index, outcome⟩
      · exact ⟨_, _, _, some made, step_of_sealed single convertedA, step_of_sealed single convertedB,
          ⟨paired, saved, abreast.apart_of_home paired home⟩, .refl _ _, fun _ => tree,
          fun _ => index⟩
      have apart := abreast.apart_of_home paired alike.home
      cases fatal : errorA.isFatal with
      | true =>
          rcases outcome with ⟨mild, -⟩ | ⟨rfl, saved, staged⟩
          · rw [mild] at fatal
            cases fatal
          refine ⟨_, _, _, parent, step_of_fatal single failedA fatal,
            step_of_fatal single failedB fatal, ⟨paired, saved, apart⟩, .refl _ _,
            fun done => (nomatch done), ?_⟩
          rintro (same | ⟨-, mild⟩)
          · exact index same
          rcases staged with same | unstageable
          · exact same
          · rw [mild _ unstageable] at fatal
            cases fatal
      | false =>
          have fatal' : errorB.isFatal = false := by
            rcases outcome with ⟨-, mild⟩ | ⟨rfl, -⟩
            · exact mild
            · exact fatal
          have unborn : parent = none → a'.index = ∅ ∧ b'.index = ∅ := fun none =>
            ⟨leaves (none ▸ abreast.paired.left.tip) errorA a' failedA fatal,
              leaves' (none ▸ abreast.paired.right.tip) errorB b' failedB fatal'⟩
          obtain ⟨a'', b'', backA, backB, twins, lines, level⟩ :=
            Paired.setBack (a := { a with destination := a' }) (b := { b with destination := b' })
              paired apart unborn commit
          exact ⟨_, a'', b'', parent, (step_of_mild single failedA fatal).trans backA,
            (step_of_mild single failedB fatal').trans backB, twins.toAbreast, lines,
            fun _ => level, fun _ => twins.index⟩

/-- **No step** tells twins apart. -/
theorem Twins.step (twins : Twins parent a b)
    (stages : Stages source settings service a.destination commit)
    (leaves : LeavesNothing source settings service a.destination commit)
    (admits : ∀ made, replica? source settings service a.destination commit = some made →
      a.destination.repository.Admits made) :
    ∃ result a' b' parent', Transcode.step source settings service a commit = (result, a') ∧
      Transcode.step source settings service b commit = (result, b') ∧ Twins parent' a' b' ∧
      SameLines a a' b b' ∧ (result = .ok () → a'.destination.index = headFiles parent') := by
  obtain ⟨result, a', b', parent', stepA, stepB, abreast, lines, level, index⟩ :=
    twins.toAbreast.step stages (fun _ _ _ => .of_eq twins.index _) leaves
      (twins.paired.leavesNothing twins.index twins.saved stages admits leaves) admits
  exact ⟨result, a', b', parent', stepA, stepB, ⟨abreast, index (Or.inl twins.index)⟩, lines, level⟩

/-- **No replay** tells twins apart. -/
theorem Twins.replay (twins : Twins parent a b)
    (recovers : Recovers source settings service a todo)
    (unforged : Unforged source settings service a todo) :
    ∃ result a' b' parent', Transcode.replay source settings service a todo = (result, a') ∧
      Transcode.replay source settings service b todo = (result, b') ∧ Twins parent' a' b' ∧
      SameLines a a' b b' ∧
      (a.destination.index = headFiles parent → result = .ok () →
        a'.destination.index = headFiles parent') := by
  induction todo generalizing a b parent with
  | nil => exact ⟨_, a, b, parent, rfl, rfl, twins, .refl a b, fun level _ => level⟩
  | cons commit todo ih =>
      obtain ⟨stages, leaves, later⟩ := recovers
      obtain ⟨admits, unforged⟩ := unforged
      obtain ⟨result, a', b', parent', stepA, stepB, twins', lines, level⟩ :=
        twins.step stages leaves admits
      cases result with
      | error error =>
          exact ⟨_, a', b', parent', replay_of_error stepA _, replay_of_error stepB _, twins', lines,
            fun _ done => by cases done⟩
      | ok done =>
          obtain ⟨result, a'', b'', parent'', replayA, replayB, twins'', lines', level'⟩ :=
            ih twins' (later a' stepA) (unforged a' stepA)
          exact ⟨result, a'', b'', parent'', (replay_of_ok stepA _).trans replayA,
            (replay_of_ok stepB _).trans replayB, twins'', lines.trans lines',
            fun _ => level' (level rfl)⟩

end Steps

/-! ## States at rest -/

/-- A sound state with nothing staged. -/
structure State.Resting (state : State) (parent : Option Commit) : Prop where
  sound : Sound state.destination parent
  level : state.destination.index = headFiles parent
  saved : state.destination.saved = state.destination.index
  apart : state.Apart

section Resting

variable {state middle : State} {front rest : List SourceCommit}

/-- A new destination is at rest. -/
theorem resting_newState {workspace : Workspace} {top : TreePath} {log : ErrorLog}
    {logPlace : Option TreePath} (vacant : workspace.disk.at? top = some .vacant)
    (apart : ∀ place, logPlace = some place → ¬ top <+: place) :
    (newState workspace top log logPlace).Resting none := by
  have place : (newState workspace top log logPlace).destination.top = top :=
    List.dropLast_concat
  have empty : (∅ : Snapshot).Fitting (newState workspace top log logPlace).destination.top :=
    ⟨Snapshot.plain_empty, fun _ _ found => nomatch found⟩
  refine ⟨⟨Destination.clean_create workspace vacant, ?_, trivial, rfl, empty, empty⟩, rfl, rfl, ?_⟩
  · rw [place]
    exact (keeps_newState vacant).ordered
  · intro own same
    rw [place]
    exact apart own same

theorem State.Resting.twins (resting : state.Resting parent) : Twins parent state state :=
  ⟨⟨⟨resting.sound, resting.sound, .refl _⟩, ⟨resting.saved, resting.saved⟩,
    resting.apart, resting.apart⟩, rfl⟩

/-- Opening the log leaves a state at rest. -/
theorem State.Resting.opened (resting : state.Resting parent) (log : ErrorLog) :
    State.Resting { state with log } parent :=
  ⟨resting.sound, resting.level, resting.saved, resting.apart⟩

/-- As long as a replay goes on, each commit leaves the state at rest. -/
theorem State.Resting.replay (resting : state.Resting parent)
    (recovers : Recovers source settings service state front)
    (unforged : Unforged source settings service state front)
    (replayed : Transcode.replay source settings service state front = (.ok (), middle)) :
    ∃ parent', middle.Resting parent' ∧
      ∃ commits : List SourceCommit, middle.log = commits.foldl ErrorLog.record state.log := by
  obtain ⟨result, next, _, parent', one, -, twins, ⟨commits, lines, -⟩, level⟩ :=
    resting.twins.replay recovers unforged
  rw [replayed] at one
  cases one
  exact ⟨parent', ⟨twins.paired.left, level resting.level rfl, twins.saved.1, twins.apart.1⟩,
    commits, lines⟩

/-- **A commit that fails** leads to a twin with one line more in the log. -/
theorem State.Resting.step_failed (resting : state.Resting parent)
    (stages : Stages source settings service state.destination commit)
    (leaves : LeavesNothing source settings service state.destination commit)
    (admits : ∀ made, replica? source settings service state.destination commit = some made →
      state.destination.repository.Admits made)
    (single : commit.isMerge = false) {error : Error} {failed : Destination}
    (converted : convert source settings service state.destination commit = (.error error, failed))
    (mild : error.isFatal = false) :
    ∃ next, step source settings service state commit = (.ok (), next) ∧ Twins parent state next ∧
      next.log = state.log.record commit := by
  rcases resting.twins.paired.convert resting.twins.saved stages (fun _ _ _ => .of_eq rfl _)
      admits with
    ⟨-, _, _, done, -⟩ | ⟨_, _, a', _, same, -, paired, alike, -⟩
  · rw [converted] at done
    cases done
  rw [converted] at same
  cases same
  obtain ⟨next, back, sound, alike', index, saved, log, place⟩ :=
    Sound.setBack { state with destination := failed } paired.left
      (resting.apart.of_home alike.home)
      (fun none => leaves (none ▸ resting.sound.tip) error failed converted mild) commit
  have whole := alike.trans alike'
  refine ⟨next, (step_of_mild single converted mild).trans back, ⟨⟨⟨resting.sound, sound, whole⟩,
    ⟨resting.saved, saved.trans index.symm⟩, resting.apart, ?_⟩, index.trans resting.level.symm⟩,
    log⟩
  intro place' own
  rw [whole.top]
  exact resting.apart place' (place ▸ own)

/-! ## Parts of a replay -/

/-- What holds of a replay holds of its front and of what follows that. -/
theorem Recovers.append (recovers : Recovers source settings service state (front ++ rest)) :
    Recovers source settings service state front ∧
      ∀ middle, Transcode.replay source settings service state front = (.ok (), middle) →
        Recovers source settings service middle rest := by
  induction front generalizing state with
  | nil => exact ⟨trivial, fun middle same => by cases same; exact recovers⟩
  | cons commit front ih =>
      obtain ⟨stages, leaves, later⟩ := recovers
      refine ⟨⟨stages, leaves, fun next stepped => (ih (later next stepped)).1⟩, ?_⟩
      intro middle replayed
      obtain ⟨next, stepped, replayed⟩ := of_replay_ok replayed
      exact (ih (later next stepped)).2 middle replayed

theorem Unforged.append (unforged : Unforged source settings service state (front ++ rest)) :
    Unforged source settings service state front ∧
      ∀ middle, Transcode.replay source settings service state front = (.ok (), middle) →
        Unforged source settings service middle rest := by
  induction front generalizing state with
  | nil => exact ⟨trivial, fun middle same => by cases same; exact unforged⟩
  | cons commit front ih =>
      obtain ⟨admits, later⟩ := unforged
      refine ⟨⟨admits, fun next stepped => (ih (later next stepped)).1⟩, ?_⟩
      intro middle replayed
      obtain ⟨next, stepped, replayed⟩ := of_replay_ok replayed
      exact (ih (later next stepped)).2 middle replayed

end Resting

end Twins

end TokenBlame.Transcode
