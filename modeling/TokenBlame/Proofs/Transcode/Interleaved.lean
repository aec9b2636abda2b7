/-
# TokenBlame.Proofs.Transcode.Interleaved -- the files of interleaved branches

The commits of all branches are replayed into one chain, each with the files that it
touched.  So a path has, at every commit of the chain, what it has at the last source commit
up to there that has an action for it (`Shows`), whatever branch that is on.

Where that one is on the line of first parents behind the source commit itself, and no merge
on the way changes the path, this is what the path has at the source commit
(`interleaved_contents`).  Elsewhere it need not be (`foreign_file_shown`).
-/
import TokenBlame.Proofs.Transcode.Branching
import TokenBlame.Proofs.Transcode.Twins

set_option autoImplicit false

namespace TokenBlame.Transcode

open Git

/-! ## Histories with files -/

/-- The files that a commit is compared with: those of its first parent. -/
def base (ancestry : Ancestry) (files : String → Files) (id : String) : Files :=
  match (ancestry.parents id).head? with
  | none => fun _ => none
  | some parent => files parent

/-- A source of the commits of a graph, in which each has files.  It touches those in which it
differs from its first parent, and no path that neither of them has. -/
structure Depicts (source : RevisionSource) (ancestry : Ancestry) (files : String → Files) :
    Prop where
  parents : ∀ id commit, source.metadata id = .ok commit → commit.parents = ancestry.parents id
  reads : ∀ id commit, source.metadata id = .ok commit → ∀ path,
    source.read path id = .ok (files id path)
  changed : ∀ id commit, source.metadata id = .ok commit → ∀ path,
    files id path ≠ base ancestry files id path → path ∈ commit.touched
  touched : ∀ id commit, source.metadata id = .ok commit → ∀ path ∈ commit.touched,
    files id path ≠ none ∨ base ancestry files id path ≠ none
  valid : ∀ id path content, files id path = some content →
    (TreePath.ofString path).isValid = true

/-- A commit has an action for a path. -/
def acts (source : RevisionSource) (path id : String) : Bool :=
  match source.metadata id with
  | .ok commit => (Plan.paths commit).contains path
  | .error _ => false

/-- The last of some commits that has an action for a path. -/
def lastActing? (source : RevisionSource) (path : String) (ids : List String) : Option String :=
  ids.reverse.find? (acts source path)

/-- A commit stands on the line of first parents behind another. -/
def OnFirstLine (ancestry : Ancestry) : String → String → Prop :=
  Relation.ReflTransGen fun child parent => (ancestry.parents child).head? = some parent

/-- A snapshot of what was replayed of some commits: each path as the last of them has it that
has an action for it. -/
structure Shows (source : RevisionSource) (tokenize : Bool) (files : String → Files)
    (made : List String) (tree : Snapshot) : Prop where
  contents : ∀ path, tree.get? (TreePath.ofString path) =
    (made.find? (acts source path)).bind fun id =>
      (files id path).map fun content => .file (form tokenize path content) false
  paths : ∀ place entry, tree.get? place = some entry → ∃ path, TreePath.ofString path = place

/-- Commits that name source commits, both newest first, each of which shows what was replayed
up to there. -/
inductive Layers (source : RevisionSource) (tokenize : Bool) (files : String → Files) :
    List Commit → List String → Prop where
  | nil : Layers source tokenize files [] []
  | cons {commit : Commit} {commits : List Commit} {id : String} {made : List String} :
      Trailer.source? commit.message = some id →
      Shows source tokenize files (id :: made) commit.tree →
      Layers source tokenize files commits made →
      Layers source tokenize files (commit :: commits) (id :: made)

/-- A clean destination at HEAD with such commits, none of them made of a merge. -/
structure Layered (source : RevisionSource) (ancestry : Ancestry) (tokenize : Bool)
    (files : String → Files) (top : TreePath) (destination : Destination) (commits : List Commit)
    (made : List String) : Prop where
  known : ∀ id ∈ made, (∃ commit, source.metadata id = .ok commit) ∧ ¬ ancestry.IsMerge id
  clean : destination.Clean
  place : destination.top = top
  chain : Chain destination.repository commits
  layers : Layers source tokenize files commits made
  level : destination.index = headFiles commits.head?
  saved : destination.saved = destination.index

section Interleaved

variable {source : RevisionSource} {ancestry : Ancestry} {files : String → Files}
  {tokenize : Bool} {top : TreePath} {settings : Settings} {service : Option CommentService}
  {state next : State} {destination after : Destination} {commit : SourceCommit}
  {commits : List Commit} {made : List String} {tree : Snapshot}

/-! ## One commit -/

theorem base_of_parent (files : String → Files) {id parent : String}
    (first : (ancestry.parents id).head? = some parent) :
    base ancestry files id = files parent := by
  unfold base
  rw [first]

theorem Depicts.valid_paths (depicts : Depicts source ancestry files)
    (known : source.metadata commit.id = .ok commit) :
    ∀ path ∈ Plan.paths commit, (TreePath.ofString path).isValid = true := by
  intro path member
  have present : ∀ id, files id path ≠ none → (TreePath.ofString path).isValid = true := by
    intro id there
    obtain ⟨content, found⟩ := Option.ne_none_iff_exists'.1 there
    exact depicts.valid id path content found
  rcases depicts.touched _ _ known path (mem_paths.1 member).1 with own | before
  · exact present _ own
  · cases parent : (ancestry.parents commit.id).head? with
    | none =>
        rw [base, parent] at before
        exact absurd rfl before
    | some id =>
        rw [base_of_parent files parent] at before
        exact present id before

theorem acts_of_known (known : source.metadata commit.id = .ok commit) (path : String) :
    acts source path commit.id = true ↔ path ∈ Plan.paths commit := by
  unfold acts
  rw [known]
  exact List.contains_iff_mem

theorem shows_empty : Shows source tokenize files [] ∅ :=
  ⟨fun _ => rfl, fun _ _ found => nomatch found⟩

/-- No file that is shown may be run. -/
theorem Shows.isExecutable (shows' : Shows source tokenize files made tree) (path : String) :
    Disk.isExecutable (tree.view (TreePath.ofString path)) = false := by
  rw [Snapshot.isExecutable_view, shows'.contents]
  cases made.find? (acts source path) with
  | none => rfl
  | some id =>
      rw [Option.bind_some]
      cases files id path with
      | none => rfl
      | some content => rfl

/-- **A commit** puts its files over those that were replayed before. -/
theorem Shows.changeAll (shows' : Shows source tokenize files made tree)
    (depicts : Depicts source ancestry files) (known : source.metadata commit.id = .ok commit)
    (own : settings.tokenize = tokenize) {wanted : List FileChange}
    (found : changes source settings none commit = .ok wanted) :
    Shows source tokenize files (commit.id :: made)
      (tree.changeAll (FileChange.removalsFirst wanted)) where
  contents := by
    intro path
    have distinct : ((FileChange.removalsFirst wanted).map FileChange.path).Nodup :=
      Destination.nodup_removalsFirst (map_path_of_changes found ▸ nodup_paths commit)
    by_cases planned : path ∈ Plan.paths commit
    · rw [List.find?_cons_of_pos ((acts_of_known known path).2 planned), Option.bind_some]
      have reads := depicts.reads _ _ known path
      rcases change_mem found planned with ⟨gone, inside⟩ | ⟨content, there, inside⟩
      · rw [reads] at gone
        rw [Except.ok.inj gone]
        exact Snapshot.get?_changeAll_remove distinct (Destination.mem_removalsFirst.2 inside)
      · rw [reads] at there
        rw [Except.ok.inj there]
        refine (Snapshot.get?_changeAll_write distinct
          (Destination.mem_removalsFirst.2 inside)).trans ?_
        rw [shows'.isExecutable path, ← own]
        rfl
    · rw [List.find?_cons_of_neg fun does => planned ((acts_of_known known path).1 does),
        ← shows'.contents path]
      refine Snapshot.get?_changeAll_other fun change member same => planned ?_
      rw [← TreePath.ofString_injective same]
      exact path_mem_of_changes found change (Destination.mem_removalsFirst.1 member)
  paths := by
    intro place entry there
    rcases Snapshot.get?_of_changeAll there with old | ⟨change, -, same⟩
    · exact shows'.paths place entry old
    · exact ⟨_, same⟩

/-! ## Destinations -/

theorem Layers.head (layers : Layers source tokenize files commits made) :
    Shows source tokenize files made (headFiles commits.head?) := by
  cases layers with
  | nil => exact shows_empty
  | cons named shows' layers => exact shows'

theorem Layers.names (layers : Layers source tokenize files commits made) :
    Destination.Names commits made := by
  induction layers with
  | nil => rfl
  | cons named _ _ ih => exact Destination.names_cons ih named

theorem Layers.mem (layers : Layers source tokenize files commits made) {commit : Commit}
    (member : commit ∈ commits) :
    ∃ newer id older, made = newer ++ id :: older ∧ Trailer.source? commit.message = some id ∧
      Shows source tokenize files (id :: older) commit.tree := by
  induction layers with
  | nil => cases member
  | @cons first commits id made named shows' _ ih =>
      rcases List.mem_cons.1 member with rfl | later
      · exact ⟨[], id, made, rfl, named, shows'⟩
      · obtain ⟨newer, other, older, rfl, found⟩ := ih later
        exact ⟨id :: newer, other, older, rfl, found⟩

theorem layered_create (workspace : Workspace) (vacant : workspace.disk.at? top = some .vacant) :
    Layered source ancestry tokenize files top (workspace.create (top ++ [TreePath.gitDirectory]) false)
      [] [] :=
  ⟨fun _ none => absurd none List.not_mem_nil, Destination.clean_create workspace vacant, List.dropLast_concat,
    Destination.chain_create _ _ _, .nil, rfl, rfl⟩

theorem Layered.reopen (layered : Layered source ancestry tokenize files top destination commits made)
    {disk : Disk} (same : disk.at? top = destination.disk.at? top) :
    Layered source ancestry tokenize files top { destination.reopen with disk } commits made := by
  obtain ⟨known, clean, place, chain, layers, level, saved⟩ := layered
  have index : destination.reopen.index = destination.index := saved
  refine ⟨known, ⟨clean.home, clean.working, ?_, ?_⟩, place, chain, layers, ?_, rfl⟩
  · show destination.reopen.index.Plain
    rw [index]
    exact clean.plain
  · show Disk.Holds disk destination.top destination.reopen.index
    rw [index]
    exact clean.holds.elsewhere (by rw [place, same])
  · show destination.reopen.index = _
    rw [index, level]

/-- **A commit that is sealed** is one more layer. -/
theorem Layered.convert (layered : Layered source ancestry tokenize files top destination commits made)
    (depicts : Depicts source ancestry files) (known : source.metadata commit.id = .ok commit)
    (traceable : Traceable commit) (single : commit.isMerge = false)
    (own : settings.tokenize = tokenize)
    (admits : ∀ made, replica? source settings none destination commit = some made →
      destination.repository.Admits made)
    (converted : convert source settings none destination commit = (.ok (), after)) :
    ∃ newest, Layered source ancestry tokenize files top after (newest :: commits) (commit.id :: made) := by
  obtain ⟨others, clean, place, chain, layers, level, saved⟩ := layered
  obtain ⟨wanted, parent, newest, found, -, replica, makes⟩ :=
    makes_of_convert clean (depicts.valid_paths known) converted
  cases chain.tipCommit.symm.trans makes.tip
  have longer := chain.advance makes.replicates.parents
    (fresh_of_admits chain makes.replicates.parents (admits newest replica))
  have shows' := (layers.head.changeAll depicts known own found)
  rw [← level, ← makes.tree] at shows'
  refine ⟨newest, List.forall_mem_cons.2 ⟨⟨⟨commit, known⟩, ?_⟩, others⟩, makes.clean, ?_,
    longer.of_core makes.core, .cons (makes.replicates.source? traceable) shows' layers,
    makes.index, makes.saved.trans makes.index.symm⟩
  · unfold Ancestry.IsMerge
    rw [← depicts.parents _ _ known]
    simpa [SourceCommit.isMerge] using single
  · exact (Destination.top_congr makes.home).trans place

/-! ## Runs in which no commit fails -/

theorem step_log (stepped : step source settings service state commit = (.ok (), next)) :
    (commit.isMerge = false ∧ ∃ destination,
      convert source settings service state.destination commit = (.ok (), destination) ∧
      next = { state with destination }) ∨
    next.log = state.log.record commit := by
  rcases step_cases source settings service state commit with
    ⟨-, own⟩ | ⟨single, ⟨destination, converted, own⟩ |
      ⟨error, destination, -, ⟨-, own⟩ | ⟨-, own⟩⟩⟩
  · cases stepped.symm.trans own
  · cases stepped.symm.trans own
    exact Or.inl ⟨single, destination, converted, rfl⟩
  · cases stepped.symm.trans own
  · obtain ⟨result, last, back, -, log, -⟩ := setBack_records { state with destination } commit
    cases stepped.symm.trans (own.trans back)
    exact Or.inr log

theorem replay_log {todo : List SourceCommit}
    (replayed : replay source settings service state todo = (.ok (), next)) :
    ∃ recorded : List SourceCommit, next.log = recorded.foldl ErrorLog.record state.log := by
  induction todo generalizing state with
  | nil =>
      cases replayed
      exact ⟨[], rfl⟩
  | cons commit todo ih =>
      obtain ⟨middle, stepped, replayed⟩ := of_replay_ok replayed
      obtain ⟨recorded, log⟩ := ih replayed
      rcases step_log stepped with ⟨-, _, -, rfl⟩ | line
      · exact ⟨recorded, log⟩
      · exact ⟨commit :: recorded, by rw [log, line]; rfl⟩

/-- Where nothing is recorded the next commit is sealed. -/
theorem replay_quiet {todo : List SourceCommit} {text : String} (old : state.log = .text text)
    (replayed : replay source settings service state (commit :: todo) = (.ok (), next))
    (quiet : next.log = state.log) :
    ∃ destination, commit.isMerge = false ∧
      convert source settings service state.destination commit = (.ok (), destination) ∧
      step source settings service state commit = (.ok (), { state with destination }) ∧
      replay source settings service { state with destination } todo = (.ok (), next) := by
  obtain ⟨middle, stepped, replayed⟩ := of_replay_ok replayed
  rcases step_log stepped with ⟨single, destination, converted, rfl⟩ | line
  · exact ⟨destination, single, converted, stepped, replayed⟩
  · exfalso
    obtain ⟨recorded, log⟩ := replay_log replayed
    have all : next.log = (commit :: recorded).foldl ErrorLog.record state.log := by
      rw [log, line]
      rfl
    rw [quiet, old, foldl_record] at all
    exact List.cons_ne_nil _ _ (unrecorded_of_same (ErrorLog.text.inj all).symm)

/-- **A replay** in which no commit fails puts one layer for each of them on top. -/
theorem Layered.replay (state : State)
    (layered : Layered source ancestry tokenize files top state.destination commits made)
    (depicts : Depicts source ancestry files) (own : settings.tokenize = tokenize)
    {todo : List SourceCommit} (known : ∀ commit ∈ todo, source.metadata commit.id = .ok commit)
    (traceable : ∀ commit ∈ todo, Traceable commit)
    (unforged : Unforged source settings none state todo) {text : String}
    (old : state.log = .text text)
    (replayed : replay source settings none state todo = (.ok (), next))
    (quiet : next.log = state.log) :
    ∃ commits' made', Layered source ancestry tokenize files top next.destination commits' made' := by
  induction todo generalizing state commits made with
  | nil =>
      cases replayed
      exact ⟨commits, made, layered⟩
  | cons commit todo ih =>
      obtain ⟨destination, single, converted, stepped, later⟩ := replay_quiet old replayed quiet
      obtain ⟨newest, layered'⟩ := layered.convert depicts (known _ List.mem_cons_self)
        (traceable _ List.mem_cons_self) single own unforged.1 converted
      exact ih _ layered' (fun commit member => known commit (List.mem_cons_of_mem _ member))
        (fun commit member => traceable commit (List.mem_cons_of_mem _ member))
        (unforged.2 _ stepped) old later quiet

/-- A run from the root in which no commit fails and comments stay. -/
structure Redraws (source : RevisionSource) (tokenize : Bool) (settings : Settings)
    (state : State) : Prop where
  replays : Replays source .root settings state
  comments : settings.comments = none
  form : settings.tokenize = tokenize

/-- What such runs lead to is layered. -/
theorem reached_layered (legible : Legible source) (depicts : Depicts source ancestry files)
    (reached : Reached (Redraws source tokenize) source top state) :
    ∃ commits made, Layered source ancestry tokenize files top state.destination commits made := by
  induction reached with
  | fresh workspace log logPlace vacant => exact ⟨[], [], layered_create workspace vacant⟩
  | reopen disk log logPlace _ same ih =>
      obtain ⟨commits, made, layered⟩ := ih
      exact ⟨commits, made, layered.reopen (by rw [same])⟩
  | @run state settings _ redraws ih =>
      obtain ⟨commits, made, layered⟩ := ih
      rcases run_begins source settings state with
        ⟨error, idle⟩ | ⟨service, todo, completed, log, prepared, opens⟩
      · rw [idle]
        exact ⟨commits, made, layered⟩
      obtain ⟨served, ids, -, -, mined⟩ := prepare_eq_ok.1 prepared
      obtain rfl : service = none := by
        unfold serviceOf at served
        rw [redraws.comments] at served
        cases served
        rfl
      obtain ⟨next, replayed, quiet⟩ := redraws.replays.unfailing _ _ _ _ prepared opens
      have known : ∀ commit ∈ todo, source.metadata commit.id = .ok commit := by
        intro commit member
        obtain ⟨id, -, own⟩ := exists_of_mem_mapM mined member
        rw [legible.own id commit own]
        exact own
      rw [run_of_replay prepared opens replayed]
      exact Layered.replay { state with log } layered depicts redraws.form known
        (legible.of_mined mined).2 (redraws.replays.unforged _ _ _ _ prepared opens)
        (log_of_start opens) replayed quiet

/-! ## Lines of first parents -/

theorem reaches_of_onFirstLine {id other : String} (line : OnFirstLine ancestry id other) :
    ancestry.Reaches id other := by
  induction line with
  | refl => exact Relation.ReflTransGen.refl
  | tail _ first ih => exact ih.tail (List.mem_of_head? first)

theorem mem_paths_of_acts {path id : String} (does : acts source path id = true) :
    ∃ commit, source.metadata id = .ok commit ∧ path ∈ Plan.paths commit := by
  unfold acts at does
  split at does
  · rename_i commit known
    exact ⟨commit, known, List.contains_iff_mem.1 does⟩
  · cases does

/-- **Along a line of first parents** a path stays as it is, back to the last commit that was
replayed and has an action for it. -/
theorem files_of_firstLine (depicts : Depicts source ancestry files) {id : String}
    {back : List String} (closed : ancestry.Closed .root (id :: back))
    (distinct : (id :: back).Nodup)
    (known : ∀ other ∈ id :: back,
      (∃ commit, source.metadata other = .ok commit) ∧ ¬ ancestry.IsMerge other)
    {path last : String} (found : (id :: back).find? (acts source path) = some last)
    (line : OnFirstLine ancestry id last)
    (merges : ∀ merge, OnFirstLine ancestry id merge → OnFirstLine ancestry merge last →
      ancestry.IsMerge merge → files merge path = base ancestry files merge path) :
    files id path = files last path := by
  obtain ⟨does, newer, older, split, idle⟩ := List.find?_eq_some_iff_append.1 found
  have replayed : ∀ {other}, OnFirstLine ancestry id other → ¬ ancestry.IsMerge other →
      other ∈ id :: back := fun behind single =>
    closed.mem List.mem_cons_self (reaches_of_onFirstLine behind) single (Ancestry.shown_root _)
  have kept : ∀ other, OnFirstLine ancestry other last → OnFirstLine ancestry id other →
      files other path = files last path := by
    intro other below
    induction below using Relation.ReflTransGen.head_induction_on with
    | refl => exact fun _ => rfl
    | @head other parent first rest ih =>
        intro behind
        by_cases same : other = last
        · rw [same]
        rw [← ih (behind.tail first), ← base_of_parent files first]
        by_cases merge : ancestry.IsMerge other
        · exact merges other behind (Relation.ReflTransGen.head first rest) merge
        by_contra differs
        obtain ⟨⟨commit, own⟩, -⟩ := known other (replayed behind merge)
        have acting : acts source path other = true := by
          obtain ⟨_, -, planned⟩ := mem_paths_of_acts does
          obtain ⟨-, some, text⟩ := mem_paths.1 planned
          rw [acts, own]
          exact List.contains_iff_mem.2 (mem_paths.2 ⟨depicts.changed _ _ own _ differs, some, text⟩)
        have inside := replayed behind merge
        rw [split] at inside closed distinct known
        have single := (known last (by simp)).2
        rcases List.mem_append.1 inside with before | inside
        · have none := idle other before
          rw [acting] at none
          cases none
        rcases List.mem_cons.1 inside with rfl | after
        · exact same rfl
        · -- the last one is behind the commit, and would be replayed twice
          obtain ⟨front, behind', rfl⟩ := List.append_of_mem after
          have twice := (closed.behind.2.behind.1 last
            (reaches_of_onFirstLine (Relation.ReflTransGen.head first rest)) (Ne.symm same) single
            (Ancestry.shown_root last))
          have once := (List.nodup_cons.1 (List.nodup_append.1 distinct).2.1).1
          exact once (List.mem_append_right _ (List.mem_cons_of_mem _ twice))
  exact kept id line Relation.ReflTransGen.refl

/-! ## All commits -/

/-- **What a path has in a destination of interleaved branches.**  At every commit that is
reached by runs from the root in which none fails, a path has what it has, in the form in
which it is replayed, at the last of the source commits up to there that has an action for it;
and there are no other paths.  That is what it has at the source commit of this one if the two
are on one line of first parents, and no merge between them changes the path. -/
theorem interleaved_contents (follows : Follows source ancestry) (legible : Legible source)
    (depicts : Depicts source ancestry files)
    (reached : Reached (Redraws source tokenize) source top state) :
    ∀ commit ∈ state.destination.repository.history, ∃ front id rest,
      sealedSources state.destination = front ++ id :: rest ∧
      Trailer.source? commit.message = some id ∧
      (∀ place entry, commit.tree.get? place = some entry →
        ∃ path, TreePath.ofString path = place) ∧
      ∀ path,
        commit.tree.get? (TreePath.ofString path) =
          ((lastActing? source path (front ++ [id])).bind fun last =>
            (files last path).map fun content => .file (form tokenize path content) false) ∧
        ∀ last, lastActing? source path (front ++ [id]) = some last →
          OnFirstLine ancestry id last →
          (∀ merge, OnFirstLine ancestry id merge → OnFirstLine ancestry merge last →
            ancestry.IsMerge merge → files merge path = base ancestry files merge path) →
          commit.tree.get? (TreePath.ofString path) =
            (files id path).map fun content => .file (form tokenize path content) false := by
  obtain ⟨commits, made, layered⟩ := reached_layered legible depicts reached
  obtain ⟨made', rooted, closed⟩ := reached_rooted follows legible
    (reached.mono fun _ _ redraws => redraws.replays)
  have recalls : Recalls state.destination.repository made :=
    ⟨commits, layered.chain, layered.layers.names⟩
  obtain rfl : made = made' :=
    List.reverse_injective (recalls.sealedSources.symm.trans rooted.recalls.sealedSources)
  intro commit member
  rw [layered.chain.history, List.mem_reverse] at member
  obtain ⟨newer, id, older, rfl, named, shows'⟩ := layered.layers.mem member
  have last : ∀ path, lastActing? source path (older.reverse ++ [id]) =
      (id :: older).find? (acts source path) := by
    intro path
    unfold lastActing?
    rw [List.reverse_append, List.reverse_reverse]
    rfl
  refine ⟨older.reverse, id, newer.reverse, ?_, named, shows'.paths, fun path => ?_⟩
  · rw [recalls.sealedSources]
    simp
  rw [last]
  refine ⟨shows'.contents path, fun other found line merges => ?_⟩
  rw [shows'.contents path, found, Option.bind_some,
    files_of_firstLine depicts closed.behind (List.nodup_append.1 rooted.distinct).2.1
      (fun _ inside => layered.known _ (List.mem_append_right _ inside)) found line merges]

end Interleaved

namespace EmptyRoot

open TwoBranches

/-- Of the commits of two branches the one at the root has no files, and the others have one. -/
def files (id : String) : Files := fun path =>
  if id ≠ rootId ∧ path = "a" then some [0x78] else none

def commit (id : String) : SourceCommit :=
  { TwoBranches.commit id with touched := if id = rootId then [] else ["a"] }

def source : RevisionSource :=
  { TwoBranches.source with
    metadata := fun id =>
      if [rootId, mainId, sideId].contains id then .ok (commit id) else .error (.commitNotFound id)
    read := fun path id => .ok (files id path) }

theorem follows : Follows source graph :=
  ⟨TwoBranches.follows.listed, TwoBranches.follows.ascending, TwoBranches.follows.named⟩

theorem known {id : String} {found : SourceCommit} (same : source.metadata id = .ok found) :
    (id = rootId ∨ id = mainId ∨ id = sideId) ∧ found = commit id := by
  unfold source at same
  dsimp only at same
  split at same
  · rename_i known
    cases same
    exact ⟨by simpa using known, rfl⟩
  · cases same

theorem mem_touched {id path : String} (member : path ∈ (commit id).touched) :
    id ≠ rootId ∧ path = "a" := by
  unfold commit at member
  dsimp only at member
  split at member
  · cases member
  · rename_i other
    exact ⟨other, List.mem_singleton.1 member⟩

theorem clear (id : String) : Clear (commit id) := by
  intro path member
  rw [(mem_touched (mem_paths.1 member).1).2]
  decide

theorem legible : Legible source := by
  refine ⟨fun id found same => ?_, fun id found same => ?_, fun id found same => ?_⟩
  · obtain ⟨-, rfl⟩ := known same
    rfl
  · obtain ⟨rfl | rfl | rfl, rfl⟩ := known same <;> exact ⟨by decide, by decide⟩
  · obtain ⟨-, rfl⟩ := known same
    exact clear id

theorem depicts : Depicts source graph files where
  parents id found same := by
    obtain ⟨-, rfl⟩ := known same
    rfl
  reads _ _ _ _ := rfl
  changed id found same path differs := by
    obtain ⟨-, rfl⟩ := known same
    by_cases inside : id ≠ rootId ∧ path = "a"
    · obtain ⟨other, rfl⟩ := inside
      show "a" ∈ if id = rootId then [] else ["a"]
      rw [if_neg other]
      exact List.mem_singleton_self _
    · -- the first parent of a commit is the root, if it has one
      refine absurd ?_ differs
      have before : base graph files id path = none := by
        unfold base
        rcases parents_cases id with ⟨-, one⟩ | none
        · rw [one]
          exact if_neg fun both => both.1 rfl
        · rw [none]
          rfl
      rw [before]
      exact if_neg inside
  touched id found same path member := by
    obtain ⟨-, rfl⟩ := known same
    refine Or.inl ?_
    unfold files
    rw [if_pos (mem_touched member)]
    exact Option.some_ne_none _
  valid id path content there := by
    unfold files at there
    split at there
    · rename_i one
      rw [one.2]
      decide
    · cases there

theorem single (id : String) : (commit id).isMerge = false := TwoBranches.single id

/-- The state when the commit of the side branch was replayed. -/
def halfway : State := (run source { stop := sideId } TwoBranches.state).2

theorem redraws_side : Redraws source true { stop := sideId } TwoBranches.state :=
  ⟨replays_first { stop := sideId } [sideId] sideId rfl (by decide +kernel) rfl rfl (clear sideId)
    (single sideId) (by decide +kernel), rfl, rfl⟩

theorem redraws_root : Redraws source true { stop := rootId } halfway := by
  have made : leaves source { stop := rootId } halfway.destination [commit rootId] = true ∧
      sealsNew source { stop := rootId } none halfway.destination (commit rootId) = true := by
    decide +kernel
  obtain ⟨left, seals⟩ := made
  exact ⟨replays_single (clear rootId) (single rootId) (prepare_of_leaves left) seals, rfl, rfl⟩

theorem reached : Reached (Redraws source true) source OneFile.top
    (run source { stop := rootId } halfway).2 :=
  .run { stop := rootId } (.run { stop := sideId } (.fresh OneFile.workspace .absent none rfl)
    redraws_side) redraws_root

theorem shown :
    let next := (run source { stop := rootId } halfway).2
    sealedSources next.destination = [sideId, rootId] ∧
      (next.destination.repository.history.any fun commit =>
        Trailer.source? commit.message == some rootId &&
          (commit.tree.get? (TreePath.ofString "a")).isSome) = true := by
  decide +kernel

end EmptyRoot

/-- The commit at the root has no file, and shows one that a commit of the side branch added. -/
theorem foreign_file_shown :
    Follows EmptyRoot.source TwoBranches.graph ∧ Legible EmptyRoot.source ∧
      Depicts EmptyRoot.source TwoBranches.graph EmptyRoot.files ∧
      ∃ state, Reached (Redraws EmptyRoot.source true) EmptyRoot.source OneFile.top state ∧
        ∃ commit ∈ state.destination.repository.history,
          Trailer.source? commit.message = some TwoBranches.rootId ∧
          commit.tree.get? (TreePath.ofString "a") ≠ none ∧
          EmptyRoot.files TwoBranches.rootId "a" = none := by
  refine ⟨EmptyRoot.follows, EmptyRoot.legible, EmptyRoot.depicts, _, EmptyRoot.reached, ?_⟩
  obtain ⟨commit, member, both⟩ := List.any_eq_true.1 EmptyRoot.shown.2
  obtain ⟨named, there⟩ := Bool.and_eq_true_iff.1 both
  exact ⟨commit, member, beq_iff_eq.1 named, Option.isSome_iff_ne_none.1 there, rfl⟩

/-- What it shows is the file as the commit of the side branch has it. -/
theorem side_file_shown :
    let next := (run EmptyRoot.source { stop := TwoBranches.rootId } EmptyRoot.halfway).2
    ∃ commit ∈ next.destination.repository.history,
      Trailer.source? commit.message = some TwoBranches.rootId ∧
      commit.tree.get? (TreePath.ofString "a") =
        (EmptyRoot.files TwoBranches.sideId "a").map fun content =>
          .file (form true "a" content) false := by
  obtain ⟨sealed, any⟩ := EmptyRoot.shown
  obtain ⟨commit, member, both⟩ := List.any_eq_true.1 any
  have named := beq_iff_eq.1 (Bool.and_eq_true_iff.1 both).1
  obtain ⟨front, id, rest, order, named', -, contents⟩ := interleaved_contents EmptyRoot.follows
    EmptyRoot.legible EmptyRoot.depicts EmptyRoot.reached commit member
  refine ⟨commit, member, named, ?_⟩
  cases named.symm.trans named'
  rw [sealed] at order
  obtain rfl : front = [TwoBranches.sideId] := by
    match front with
    | [] => cases order
    | [first] =>
        cases order
        rfl
    | first :: second :: front => simp at order
  exact (contents "a").1

end TokenBlame.Transcode
