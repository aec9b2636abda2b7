/-
# TokenBlame.Proofs.Transcode.Branching -- histories with branches

HEAD names one source commit, and a run lists what is not behind it.  Commits of other
branches come back in such a list although they were replayed, and are left out by name.
So all that is missing is pending, as long as the commits that were replayed are closed
(`mem_pending`), and nothing else is (`of_pending`).

Runs from the root in which no commit fails seal each commit once, after all its ancestors,
whatever their limits and range ends are (`branches_sealed_once`).
-/
import TokenBlame.Proofs.Ancestry
import TokenBlame.Proofs.Transcode.Recalled

set_option autoImplicit false

namespace TokenBlame.Transcode

open Git

section Branching

variable {source : RevisionSource} {ancestry : Ancestry} {settings : Settings}
  {destination : Destination} {state : State} {made ids : List String}

/-! ## What is pending -/

/-- A destination that recalls different commits of a graph, newest first. -/
structure Rooted (ancestry : Ancestry) (made : List String) (destination : Destination) :
    Prop where
  recalls : Recalls destination.repository made
  distinct : made.Nodup
  named : ∀ id ∈ made, ancestry.named? id = some id

/-- What is pending is listed from the start of the range, or from the newest commit on and
without those that were sealed. -/
theorem Rooted.pending_cases (rooted : Rooted ancestry made destination)
    (found : pending source settings destination = .ok ids) :
    (made = [] ∧ source.list ⟨settings.start, settings.stop⟩ = .ok ids) ∨
      ∃ last back listed, made = last :: back ∧
        source.list ⟨.after last, settings.stop⟩ = .ok listed ∧
        ids = listed.filter fun id => !made.contains id := by
  rw [pending_of_recalls rooted.recalls rooted.distinct] at found
  cases made with
  | nil => exact Or.inl ⟨rfl, found⟩
  | cons last back =>
      cases listed : source.list ⟨.after last, settings.stop⟩ with
      | error error =>
          rw [List.head?_cons] at found
          dsimp only at found
          rw [listed] at found
          cases found
      | ok all =>
          rw [List.head?_cons] at found
          dsimp only at found
          rw [listed] at found
          cases found
          exact Or.inr ⟨last, back, all, rfl, listed, rfl⟩

/-- What is pending comes in order and was not sealed before. -/
theorem of_pending (follows : Follows source ancestry) (rooted : Rooted ancestry made destination)
    (found : pending source settings destination = .ok ids) :
    ancestry.Ascending ids ∧ ∀ id ∈ ids,
      ancestry.named? id = some id ∧ ancestry.UpTo settings.stop id ∧ id ∉ made := by
  rcases rooted.pending_cases found with ⟨rfl, listed⟩ | ⟨last, back, all, -, listed, rfl⟩
  · exact ⟨follows.ascending _ _ listed, fun id member =>
      ⟨follows.named _ _ listed id member, ((follows.listed _ _ listed id).1 member).1,
        List.not_mem_nil⟩⟩
  · refine ⟨(follows.ascending _ _ listed).filter _, fun id member => ?_⟩
    obtain ⟨inside, new⟩ := List.mem_filter.1 member
    exact ⟨follows.named _ _ listed id inside, ((follows.listed _ _ listed id).1 inside).1,
      by simpa using new⟩

/-- **All that is missing is pending**, as long as what was sealed is closed. -/
theorem mem_pending (follows : Follows source ancestry) (rooted : Rooted ancestry made destination)
    (closed : ancestry.Closed settings.start made)
    (found : pending source settings destination = .ok ids) {id : String}
    (upTo : ancestry.UpTo settings.stop id) (shown : ¬ ancestry.Hides settings.start id)
    (new : id ∉ made) : id ∈ ids := by
  rcases rooted.pending_cases found with ⟨rfl, listed⟩ | ⟨last, back, all, rfl, listed, rfl⟩
  · exact (follows.listed _ _ listed id).2 ⟨upTo, shown⟩
  · refine List.mem_filter.2 ⟨(follows.listed _ _ listed id).2 ⟨upTo, ?_⟩, by simpa using new⟩
    -- what the newest commit leads back to was sealed
    rintro ⟨other, same, reaches⟩
    rw [rooted.named last List.mem_cons_self] at same
    cases same
    obtain ⟨-, -, -, single⟩ := upTo
    exact new (closed.mem List.mem_cons_self reaches single shown)

/-! ## Runs -/

/-- **A run** seals commits that were pending, in order.  If none fails they are a front of
what was pending, and all of it if the end is reached. -/
theorem run_rooted (follows : Follows source ancestry) (legible : Legible source)
    (unforged : RunUnforged source settings state)
    (rooted : Rooted ancestry made state.destination) :
    (∃ error, run source settings state = (.error error, state)) ∨
    ∃ ids result next sealed, pending source settings state.destination = .ok ids ∧
      run source settings state = (result, next) ∧ sealed.Sublist ids ∧
      Rooted ancestry (sealed.reverse ++ made) next.destination ∧
      (Unfailing source settings state → sealed <+: ids ∧ (result = .ok true → sealed = ids)) := by
  rcases run_recalls legible unforged rooted.recalls with idle |
    ⟨ids, result, next, sealed, found, ran, front, recalls, whole⟩
  · exact Or.inl idle
  · obtain ⟨ascending, known⟩ := of_pending follows rooted found
    refine Or.inr ⟨ids, result, next, sealed, found, ran, front, ⟨recalls, ?_, ?_⟩, whole⟩
    · rw [List.nodup_append, List.nodup_reverse]
      refine ⟨front.nodup ascending.nodup, rooted.distinct, ?_⟩
      rintro id new other before rfl
      exact (known id (front.subset (List.mem_reverse.1 new))).2.2 before
    · intro id member
      rcases List.mem_append.1 member with new | before
      · exact (known id (front.subset (List.mem_reverse.1 new))).1
      · exact rooted.named id before

/-- Where no commit fails what was sealed stays closed. -/
theorem closed_of_front (follows : Follows source ancestry)
    (rooted : Rooted ancestry made destination) (closed : ancestry.Closed settings.start made)
    (found : pending source settings destination = .ok ids) {front : List String}
    (begins : front <+: ids) : ancestry.Closed settings.start (front.reverse ++ made) := by
  obtain ⟨rest, rfl⟩ := begins
  obtain ⟨ascending, known⟩ := of_pending follows rooted found
  refine closed.extend ascending fun id member other reaches single shown => ?_
  by_cases before : other ∈ made
  · exact Or.inl before
  · obtain ⟨-, ⟨tip, named, leads, -⟩, -⟩ := known id member
    exact Or.inr (mem_pending follows rooted closed found
      ⟨tip, named, leads.trans reaches, single⟩ shown before)

/-! ## Runs from the root -/

/-- A run from a range start in which no commit fails. -/
structure Replays (source : RevisionSource) (start : RangeStart) (settings : Settings)
    (state : State) : Prop where
  begins : settings.start = start
  unforged : RunUnforged source settings state
  unfailing : Unfailing source settings state

variable {top : TreePath} {start : RangeStart}

/-- A run that seals all that is pending, or a front of it, keeps what was sealed closed. -/
theorem Replays.run (replays : Replays source start settings state)
    (follows : Follows source ancestry) (legible : Legible source)
    (rooted : Rooted ancestry made state.destination) (closed : ancestry.Closed start made) :
    ∃ sealed, Rooted ancestry (sealed ++ made) (run source settings state).2.destination ∧
      ancestry.Closed start (sealed ++ made) ∧
      ((Transcode.run source settings state).1 = .ok true → ∀ id,
        ancestry.UpTo settings.stop id → ¬ ancestry.Hides start id → id ∈ sealed ++ made) := by
  obtain rfl := replays.begins
  rcases run_rooted follows legible replays.unforged rooted with ⟨error, ran⟩ |
    ⟨ids, result, next, sealed, found, ran, -, rooted', whole⟩
  · rw [ran]
    exact ⟨[], rooted, closed, fun done => nomatch done⟩
  · obtain ⟨begins, all⟩ := whole replays.unfailing
    rw [ran]
    refine ⟨sealed.reverse, rooted', closed_of_front follows rooted closed found begins, ?_⟩
    intro done id upTo shown
    by_cases before : id ∈ made
    · exact List.mem_append_right _ before
    · refine List.mem_append_left _ (List.mem_reverse.2 ?_)
      rw [all done]
      exact mem_pending follows rooted closed found upTo shown before

theorem rooted_create (workspace : Workspace) (home : TreePath) :
    Rooted ancestry [] (workspace.create home false) :=
  ⟨recalls_create workspace home false, List.nodup_nil, fun _ none => absurd none List.not_mem_nil⟩

/-- What runs in which no commit fails have sealed is closed. -/
theorem reached_rooted (follows : Follows source ancestry) (legible : Legible source)
    (reached : Reached (Replays source start) source top state) :
    ∃ made, Rooted ancestry made state.destination ∧ ancestry.Closed start made := by
  induction reached with
  | fresh workspace log logPlace vacant => exact ⟨[], rooted_create workspace _, trivial⟩
  | reopen disk log logPlace _ same ih =>
      obtain ⟨made, rooted, closed⟩ := ih
      exact ⟨made, ⟨rooted.recalls, rooted.distinct, rooted.named⟩, closed⟩
  | run settings _ replays ih =>
      obtain ⟨made, rooted, closed⟩ := ih
      obtain ⟨sealed, rooted', closed', -⟩ := replays.run follows legible rooted closed
      exact ⟨sealed ++ made, rooted', closed'⟩

/-- **Each commit is sealed once, after its ancestors**, whatever runs from the root are made
in which no commit fails.  What was sealed stays, and when the end of a range is reached all
that it leads back to was sealed. -/
theorem branches_sealed_once (follows : Follows source ancestry) (legible : Legible source)
    (reached : Reached (Replays source .root) source top state) :
    (sealedSources state.destination).Nodup ∧
    (∀ front id rest, sealedSources state.destination = front ++ id :: rest →
      ∀ other, ancestry.Reaches id other → other ≠ id → ¬ ancestry.IsMerge other →
        other ∈ front) ∧
    ∀ settings, Replays source .root settings state →
      sealedSources state.destination <+: sealedSources (run source settings state).2.destination ∧
      ((run source settings state).1 = .ok true → ∀ id, ancestry.UpTo settings.stop id →
        id ∈ sealedSources (run source settings state).2.destination) := by
  obtain ⟨made, rooted, closed⟩ := reached_rooted follows legible reached
  rw [rooted.recalls.sealedSources]
  refine ⟨List.nodup_reverse.2 rooted.distinct, ?_, ?_⟩
  · intro front id rest split other reaches different single
    have newest : made = rest.reverse ++ id :: front.reverse := by
      rw [← List.reverse_reverse made, split]
      simp
    rw [newest] at closed
    exact List.mem_reverse.1 (closed.behind.1 other reaches different single (Ancestry.shown_root other))
  · intro settings replays
    obtain ⟨sealed, rooted', -, all⟩ := replays.run follows legible rooted closed
    rw [rooted'.recalls.sealedSources, List.reverse_append]
    refine ⟨List.prefix_append _ _, fun done id upTo => ?_⟩
    rw [← List.reverse_append, List.mem_reverse]
    exact all done id upTo (Ancestry.shown_root id)

end Branching

/-! ## Runs for one commit -/

section Single

variable {source : RevisionSource} {settings : Settings} {service : Option CommentService}
  {state : State} {commit : SourceCommit} {completed : Bool}

/-- What is made of such a commit has a name of its own. -/
theorem admits_of_sealsNew {destination : Destination} (clear : Clear commit)
    (seals : sealsNew source settings service destination commit = true) (made : Commit)
    (own : replica? source settings service destination commit = some made) :
    destination.repository.Admits made := by
  obtain ⟨next, converted, stored⟩ := convert_of_sealsNew seals
  refine admits_of_fresh clear (fun next' converted' => ?_) own
  cases converted.symm.trans converted'
  exact stored

/-- Whether these commits are all that is left to replay, with comments as they are. -/
def leaves (source : RevisionSource) (settings : Settings) (destination : Destination)
    (todo : List SourceCommit) : Bool :=
  match prepare source settings destination with
  | .ok (none, commits, true) => commits == todo
  | _ => false

theorem prepare_of_leaves {destination : Destination} {todo : List SourceCommit}
    (left : leaves source settings destination todo = true) :
    prepare source settings destination = .ok (none, todo, true) := by
  unfold leaves at left
  split at left
  · rename_i commits prepared
    rw [prepared, beq_iff_eq.1 left]
  · cases left

theorem replay_single (single : commit.isMerge = false)
    (seals : sealsNew source settings service state.destination commit = true) :
    ∃ destination, replay source settings service state [commit] =
      (.ok (), { state with destination }) := by
  obtain ⟨next, converted, -⟩ := convert_of_sealsNew seals
  exact ⟨next, replay_of_ok (step_of_sealed single converted) []⟩

/-- No commit fails in a run for one commit that is sealed. -/
theorem replays_single (clear : Clear commit) (single : commit.isMerge = false)
    (prepared : prepare source settings state.destination = .ok (service, [commit], completed))
    (seals : sealsNew source settings service state.destination commit = true) :
    Replays source settings.start settings state where
  begins := rfl
  unforged := by
    intro service' todo completed' log prepared' opens
    rw [prepared] at prepared'
    cases prepared'
    exact ⟨admits_of_sealsNew clear seals, fun _ _ => trivial⟩
  unfailing := by
    intro service' todo completed' log prepared' opens
    rw [prepared] at prepared'
    cases prepared'
    obtain ⟨destination, replayed⟩ :=
      @replay_single source settings service { state with log } commit single seals
    exact ⟨_, replayed, rfl⟩

theorem run_single (single : commit.isMerge = false)
    (prepared : prepare source settings state.destination = .ok (service, [commit], completed))
    {log : ErrorLog} (opens : state.log.start = .ok log)
    (seals : sealsNew source settings service state.destination commit = true) :
    (run source settings state).1 = .ok completed := by
  obtain ⟨destination, replayed⟩ :=
    @replay_single source settings service { state with log } commit single seals
  rw [run_of_replay prepared opens replayed]
  rfl

end Single

/-! ## Two branches -/

namespace TwoBranches

def rootId : String := OneFile.onlyId

def mainId : String := String.ofList (List.replicate 40 '3')

def sideId : String := String.ofList (List.replicate 40 '4')

/-- A commit, one on top of it, and one on a branch of its own. -/
def graph : Ancestry where
  parents id := if id = mainId then [rootId] else []
  named? revision :=
    if revision = "HEAD" then some mainId
    else if [rootId, mainId, sideId].contains revision then some revision
    else none

/-- What a commit leads back to. -/
def behind (id : String) : List String :=
  id :: graph.parents id

/-- What the start of a range hides. -/
def hidden : RangeStart → List String
  | .root => []
  | .including revision => (graph.named? revision).toList.flatMap fun first =>
      (graph.parents first).flatMap behind
  | .after revision => (graph.named? revision).toList.flatMap behind

/-- A commit that writes the one file. -/
def commit (id : String) : SourceCommit :=
  { OneFile.commit with id, parents := graph.parents id }

/-- A source of three commits. -/
def source : RevisionSource where
  list range :=
    match graph.named? range.stop with
    | none => .error (.commitNotFound range.stop)
    | some tip => .ok ((behind tip).reverse.filter fun id => !(hidden range.start).contains id)
  metadata id :=
    if [rootId, mainId, sideId].contains id then .ok (commit id) else .error (.commitNotFound id)
  read _ _ := .ok (some [0x78])

theorem parents_cases (id : String) :
    id = mainId ∧ graph.parents id = [rootId] ∨ graph.parents id = [] := by
  by_cases child : id = mainId
  · exact Or.inl ⟨child, if_pos child⟩
  · exact Or.inr (if_neg child)

theorem reaches_iff {id other : String} : graph.Reaches id other ↔ other ∈ behind id := by
  constructor
  · intro reaches
    induction reaches with
    | refl => exact List.mem_cons_self
    | @tail middle last _ parent ih =>
        rcases List.mem_cons.1 ih with rfl | above
        · exact List.mem_cons_of_mem _ parent
        · -- the parent of a commit has no parents
          rcases parents_cases id with ⟨-, one⟩ | none
          · rw [one, List.mem_singleton] at above
            subst above
            cases parent
          · rw [none] at above
            cases above
  · intro member
    rcases List.mem_cons.1 member with rfl | parent
    · exact Relation.ReflTransGen.refl
    · exact Relation.ReflTransGen.single parent

theorem hides_iff {start : RangeStart} {id : String} :
    graph.Hides start id ↔ id ∈ hidden start := by
  cases start with
  | root => simp [Ancestry.Hides, hidden]
  | including revision => simp [Ancestry.Hides, hidden, reaches_iff]
  | after revision => simp [Ancestry.Hides, hidden, reaches_iff]

theorem not_isMerge (id : String) : ¬ graph.IsMerge id := by
  unfold Ancestry.IsMerge
  rcases parents_cases id with ⟨-, one⟩ | none
  · rw [one]
    decide
  · rw [none]
    decide

theorem named_cases {revision tip : String} (named : graph.named? revision = some tip) :
    tip = rootId ∨ tip = mainId ∨ tip = sideId := by
  unfold graph at named
  dsimp only at named
  split at named
  · cases named
    exact Or.inr (Or.inl rfl)
  · split at named
    · rename_i known
      cases named
      simpa using known
    · cases named

theorem follows : Follows source graph := by
  have shape : ∀ range ids, source.list range = .ok ids → ∃ tip,
      graph.named? range.stop = some tip ∧
        ids = (behind tip).reverse.filter fun id => !(hidden range.start).contains id := by
    intro range ids listed
    unfold source at listed
    dsimp only at listed
    split at listed
    · cases listed
    · rename_i tip named
      cases listed
      exact ⟨tip, named, rfl⟩
  refine ⟨?_, ?_, ?_⟩
  · intro range ids listed id
    obtain ⟨tip, named, rfl⟩ := shape range ids listed
    rw [hides_iff, List.mem_filter, List.mem_reverse]
    simp [Ancestry.UpTo, named, reaches_iff, not_isMerge]
  · intro range ids listed
    obtain ⟨tip, named, rfl⟩ := shape range ids listed
    refine List.Pairwise.filter _ ?_
    rcases named_cases named with rfl | rfl | rfl
    · exact List.pairwise_singleton _ _
    · -- a commit comes after its parent
      exact List.pairwise_pair.2 (by rw [reaches_iff]; decide)
    · exact List.pairwise_singleton _ _
  · intro range ids listed id member
    obtain ⟨tip, named, rfl⟩ := shape range ids listed
    have known : ∀ other ∈ behind tip, graph.named? other = some other := by
      rcases named_cases named with rfl | rfl | rfl <;> decide
    exact known id (List.mem_reverse.1 (List.mem_filter.1 member).1)

theorem clear (id : String) : Clear (commit id) :=
  show ∀ path ∈ Plan.paths OneFile.commit, Destination.Outside path by decide

theorem single (id : String) : (commit id).isMerge = false := by
  rw [SourceCommit.isMerge, decide_eq_false_iff_not]
  exact not_isMerge id

theorem legible : Legible source := by
  have known : ∀ id found, source.metadata id = .ok found →
      (id = rootId ∨ id = mainId ∨ id = sideId) ∧ found = commit id := by
    intro id found same
    unfold source at same
    dsimp only at same
    split at same
    · rename_i known
      cases same
      exact ⟨by simpa using known, rfl⟩
    · cases same
  refine ⟨?_, ?_, ?_⟩
  · intro id found same
    obtain ⟨-, rfl⟩ := known id found same
    rfl
  · intro id found same
    obtain ⟨rfl | rfl | rfl, rfl⟩ := known id found same <;> exact ⟨by decide, by decide⟩
  · intro id found same
    obtain ⟨-, rfl⟩ := known id found same
    exact clear id

/-- A new destination. -/
def state : State := newState OneFile.workspace OneFile.top .absent none

/-- A first run that has one commit to replay. -/
theorem replays_first {source : RevisionSource} {commit : SourceCommit} (settings : Settings)
    (ids : List String) (id : String) {completed : Bool} (plain : settings.comments = none)
    (listed : source.list ⟨settings.start, settings.stop⟩ = .ok ids)
    (cut : limited settings.limit ids = ([id], completed))
    (known : source.metadata id = .ok commit) (clear : Clear commit)
    (single : commit.isMerge = false)
    (seals : sealsNew source settings none state.destination commit = true) :
    Replays source settings.start settings state := by
  have plan : prepare source settings state.destination = .ok (none, [commit], completed) := by
    refine prepare_eq_ok.2 ⟨?_, ids, listed, by rw [cut], ?_⟩
    · unfold serviceOf
      rw [plain]
    · rw [cut]
      exact mapM_eq_ok_iff.2 (List.forall₂_cons.2 ⟨known, List.Forall₂.nil⟩)
  exact replays_single clear single plan seals

theorem replays_side : Replays source .root { stop := sideId } state :=
  replays_first { stop := sideId } [sideId] sideId rfl (by decide +kernel) rfl rfl (clear sideId)
    (single sideId) (by decide +kernel)

/-- The state when the commit of the side branch was replayed. -/
def halfway : State := (run source { stop := sideId } state).2

theorem replays_root : Replays source .root { stop := rootId } halfway ∧
    (run source { stop := rootId } halfway).1 = .ok true := by
  have made : leaves source { stop := rootId } halfway.destination [commit rootId] = true ∧
      sealsNew source { stop := rootId } none halfway.destination (commit rootId) = true ∧
      halfway.log = .text "" := by decide +kernel
  obtain ⟨left, seals, opened⟩ := made
  have prepared := prepare_of_leaves left
  have opens : halfway.log.start = .ok (.text "") := by rw [opened]; rfl
  exact ⟨replays_single (clear rootId) (single rootId) prepared seals,
    run_single (single rootId) prepared opens seals⟩

theorem reached : Reached (Replays source .root) source OneFile.top halfway :=
  .run { stop := sideId } (.fresh OneFile.workspace .absent none rfl) replays_side

end TwoBranches

/-- After the commit of a side branch a run to another one seals that one, too. -/
theorem two_branches_sealed :
    let next := (run TwoBranches.source { stop := TwoBranches.rootId } TwoBranches.halfway).2
    sealedSources TwoBranches.halfway.destination <+: sealedSources next.destination ∧
      TwoBranches.rootId ∈ sealedSources next.destination := by
  obtain ⟨replays, done⟩ := TwoBranches.replays_root
  obtain ⟨-, -, grows⟩ := branches_sealed_once TwoBranches.follows TwoBranches.legible
    TwoBranches.reached
  obtain ⟨kept, all⟩ := grows { stop := TwoBranches.rootId } replays
  exact ⟨kept, all done TwoBranches.rootId
    ⟨TwoBranches.rootId, by decide, Relation.ReflTransGen.refl, TwoBranches.not_isMerge _⟩⟩

end TokenBlame.Transcode
