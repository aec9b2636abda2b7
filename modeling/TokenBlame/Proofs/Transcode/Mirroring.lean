/-
# TokenBlame.Proofs.Transcode.Mirroring -- destinations that mirror a linear history

Behind the first `k` commits of a linear history a destination stands (`Stands`) when its
commits are those that were made of them and each has the mirror of its files.  Its index
is the mirror of the files behind `k` commits, or behind `k + 1` where one more was staged
but could not be sealed.

Replaying the next commit leads to the mirror of the next files (`convert_stands`): it is
staged (`Stands.stage`) and then sealed, or it is left staged (`Stands.sealStaged`).  What was
left staged is staged again without fail where the destination is settled (`Settled`): nothing
was staged over a directory of HEAD's, or beneath a file of it.
-/
import TokenBlame.Proofs.Destination.Sealing
import TokenBlame.Proofs.Git.Revision
import TokenBlame.Proofs.Transcode.Linear

set_option autoImplicit false

namespace TokenBlame

open Git

/-- What is staged turns no file of HEAD into a directory, and no directory into a file. -/
def Destination.Settled (destination : Destination) : Prop :=
  ∀ tree, destination.repository.headTree? = some tree → ∀ place entry other entry',
    tree.get? place = some entry → destination.index.get? other = some entry' →
      TreePath.Apart place other

namespace Transcode

/-! ## Commits that were made -/

/-- The commits, newest first, that were made of the first commits of a linear history. -/
inductive Replayed (tokenize : Bool) (ids : List String) (files : Nat → Files) :
    Nat → List Commit → Prop where
  | nothing : Replayed tokenize ids files 0 []
  | next {k : Nat} {commits : List Commit} {commit : Commit} {id : String} :
      Replayed tokenize ids files k commits → ids[k]? = some id →
      Trailer.IsId commit.id.hex → Trailer.source? commit.message = some id →
      Mirrors tokenize (files (k + 1)) commit.tree →
      Replayed tokenize ids files (k + 1) (commit :: commits)

section Replayed

variable {tokenize : Bool} {ids : List String} {files : Nat → Files} {k : Nat}
  {commits : List Commit}

theorem Replayed.names (replayed : Replayed tokenize ids files k commits) :
    Destination.Names commits (ids.take k).reverse := by
  induction replayed with
  | nothing => rfl
  | next _ here _ named _ ih =>
      rw [List.take_add_one, here, Option.toList_some, List.reverse_concat]
      exact Destination.names_cons ih named

theorem Replayed.small (replayed : Replayed tokenize ids files k commits) : k ≤ ids.length := by
  cases replayed with
  | nothing => exact Nat.zero_le _
  | next _ here _ _ _ => exact (List.getElem?_eq_some_iff.1 here).1

/-- Each commit names a source commit and has the mirror of its files. -/
theorem Replayed.mem (replayed : Replayed tokenize ids files k commits) {commit : Commit}
    (member : commit ∈ commits) :
    Trailer.IsId commit.id.hex ∧
      ∃ j id, j < k ∧ ids[j]? = some id ∧ Trailer.source? commit.message = some id ∧
        Mirrors tokenize (files (j + 1)) commit.tree := by
  induction replayed with
  | nothing => cases member
  | next before here isId named mirrors ih =>
      rcases List.mem_cons.1 member with rfl | member
      · exact ⟨isId, _, _, Nat.lt_succ_self _, here, named, mirrors⟩
      · obtain ⟨isId', j, id, small, rest⟩ := ih member
        exact ⟨isId', j, id, Nat.lt_succ_of_lt small, rest⟩

/-- The newest commit has the mirror of the files behind all of them. -/
theorem Replayed.newest (replayed : Replayed tokenize ids files (k + 1) commits) :
    ∃ commit, commits.head? = some commit ∧ Mirrors tokenize (files (k + 1)) commit.tree := by
  cases replayed with
  | next _ _ _ _ mirrors => exact ⟨_, rfl, mirrors⟩

end Replayed

/-! ## Standing destinations -/

/-- A destination whose commits were made of the first `k` commits of a linear history. -/
structure Stands (tokenize : Bool) (ids : List String) (files : Nat → Files) (top : TreePath)
    (k : Nat) (commits : List Commit) (destination : Destination) : Prop where
  clean : destination.Clean
  place : destination.top = top
  saved : destination.saved = destination.index
  chain : Chain destination.repository commits
  replayed : Replayed tokenize ids files k commits

/-- The index of a standing destination is that of its newest commit, or it is one commit
ahead where that may be. -/
def Level (tokenize : Bool) (files : Nat → Files) (k : Nat) (destination : Destination)
    (ahead : Prop) : Prop :=
  Mirrors tokenize (files k) destination.index ∨
    Mirrors tokenize (files (k + 1)) destination.index ∧ ahead

theorem Level.imp {tokenize : Bool} {files : Nat → Files} {k : Nat} {destination : Destination}
    {may might : Prop} (level : Level tokenize files k destination may) (so : may → might) :
    Level tokenize files k destination might :=
  level.imp_right fun ahead => ⟨ahead.1, so ahead.2⟩

section Stands

variable {source : RevisionSource} {ids : List String} {files : Nat → Files} {top : TreePath}
  {settings : Settings} {tokenize : Bool} {destination : Destination} {k : Nat}
  {commits : List Commit}

theorem Mirrors.regular {files : Files} (mirrors : Mirrors tokenize files destination.index) :
    destination.Regular := by
  intro place entry found
  obtain ⟨path, content, -, -, -, same⟩ := (mirrors place entry).1 found
  exact ⟨_, same⟩

/-- The mapping of a standing destination has its commits with the source commits that they
name. -/
theorem Stands.mapping (stands : Stands tokenize ids files top k commits destination)
    (distinct : ids.Nodup) :
    ∃ mapping, Destination.mapping destination.repository = .ok mapping ∧
      ∀ commit ∈ commits, ∀ id, Trailer.source? commit.message = some id →
        mapping.source commit.id.hex = .ok id := by
  have once : (ids.take k).reverse.Nodup :=
    List.nodup_reverse.2 (distinct.sublist (List.take_sublist k ids))
  obtain ⟨mapping, mapped, tells⟩ :=
    Destination.mapping_of_chain stands.chain stands.replayed.names once
  refine ⟨mapping, mapped, fun commit member id own => ?_⟩
  exact Mapping.source_eq_ok.2
    ((tells.toSource _ _).2 (stands.replayed.names.mem_zip member own))

/-- A commit of a standing destination is found by its full name. -/
theorem Stands.resolve (stands : Stands tokenize ids files top k commits destination)
    {commit : Commit} (member : commit ∈ commits) :
    destination.repository.resolve commit.id.hex = .ok commit.id := by
  have stored := stands.chain.commits_eq
  exact resolve_full (fun c inside => (stands.replayed.mem (stored ▸ inside)).1)
    (stored ▸ stands.chain.distinct) (stored ▸ member)

/-- A destination with the files of HEAD in its index is settled. -/
theorem Stands.settled (stands : Stands tokenize ids files top k commits destination)
    (proper : Proper (files k)) (mirrors : Mirrors tokenize (files k) destination.index) :
    destination.Settled := by
  intro tree head place entry other entry' own found
  rw [stands.chain.headTree?] at head
  cases k with
  | zero =>
      cases stands.replayed
      cases head
  | succ k =>
      obtain ⟨newest, first, mirrors'⟩ := stands.replayed.newest
      rw [first] at head
      cases head
      exact (mirrors'.plain proper).apart _ _ _ _ own (mirrors'.unique mirrors ▸ found)

/-- What is removed again lies apart from all that was staged with it. -/
theorem Stands.removed_apart (stands : Stands tokenize ids files top k commits destination)
    (settled : destination.Settled) (start : ∀ path, files 0 path = none) {path : String}
    (kept : Plan.isBinary path = false) (present : files k path ≠ none) :
    ∀ other entry, destination.index.get? other = some entry →
      TreePath.Apart (TreePath.ofString path) other := by
  intro other entry found
  cases k with
  | zero => exact absurd (start path) present
  | succ k =>
      obtain ⟨newest, head, mirrors⟩ := stands.replayed.newest
      obtain ⟨content, there⟩ := Option.ne_none_iff_exists'.1 present
      have atHead : newest.tree.get? (TreePath.ofString path) =
          some (.file (form tokenize path content) false) := by
        rw [mirrors.get? kept, there]
        rfl
      refine settled newest.tree ?_ _ _ other entry atHead found
      rw [stands.chain.headTree?, head]
      rfl

theorem Stands.stageable
    (fits : ∀ k path content, files k path = some content → Disk.Fits top (Utf8.encode path))
    (stands : Stands tokenize ids files top k commits destination) {id : String}
    {commit : SourceCommit} (honest : Honest (files k) (files (k + 1)) id commit)
    (before : Proper (files k)) (after : Proper (files (k + 1))) :
    ∀ change ∈ (Plan.paths commit).map (changeTo tokenize (files (k + 1))),
      destination.Stageable change.path := by
  intro change member
  obtain ⟨path, inside, rfl⟩ := List.mem_map.1 member
  rw [path_changeTo]
  rcases honest.present path (mem_paths.1 inside).1 with there | there
  · obtain ⟨content, there⟩ := Option.ne_none_iff_exists'.1 there
    exact ⟨stands.place ▸ fits _ path content there, before.valid path content there⟩
  · obtain ⟨content, there⟩ := Option.ne_none_iff_exists'.1 there
    exact ⟨stands.place ▸ fits _ path content there, after.valid path content there⟩

/-- The changes of the next commit lead to the mirror of the next files.  That is there already
where the commit was left staged. -/
theorem Stands.leadsTo (linear : Linear source ids files)
    (stands : Stands tokenize ids files top k commits destination)
    (level : Level tokenize files k destination destination.Settled)
    {id : String} {commit : SourceCommit} (here : ids[k]? = some id)
    (known : source.metadata id = .ok commit) :
    ∃ goal, Mirrors tokenize (files (k + 1)) goal ∧
      Destination.LeadsTo destination.index goal
        ((Plan.paths commit).map (changeTo tokenize (files (k + 1)))) := by
  have honest := linear.honest k id commit here known
  have small : k + 1 ≤ ids.length := (List.getElem?_eq_some_iff.1 here).1
  have before := linear.proper k (Nat.le_of_succ_le small)
  have kept : ∀ path ∈ Plan.paths commit, Plan.isBinary path = false := fun path member =>
    (mem_paths.1 member).2.2
  have others := honest.others before (linear.proper (k + 1) small)
  have gone : ∀ path ∈ Plan.paths commit, files (k + 1) path = none → files k path ≠ none := by
    intro path member none
    rcases honest.present path (mem_paths.1 member).1 with there | there
    · exact there
    · exact absurd none there
  rcases level with mirrors | ⟨mirrors, settled⟩
  · obtain ⟨goal, mirrors'⟩ := mirrors.reach kept others
    refine ⟨goal, mirrors', leadsTo_mirror mirrors mirrors' kept ?_ others⟩
    intro path member none other entry found
    obtain ⟨content, there⟩ := Option.ne_none_iff_exists'.1 (gone path member none)
    have own := mirrors.get? (kept path member)
    rw [there] at own
    exact (mirrors.plain before).apart _ _ _ _ own found
  · refine ⟨destination.index, mirrors, leadsTo_mirror mirrors mirrors kept ?_ fun _ _ _ => rfl⟩
    intro path member none
    exact stands.removed_apart settled linear.start (kept path member) (gone path member none)

/-- **The next commit is staged**: the index mirrors the next files then. -/
theorem Stands.stage (linear : Linear source ids files)
    (fits : ∀ k path content, files k path = some content → Disk.Fits top (Utf8.encode path))
    (stands : Stands settings.tokenize ids files top k commits destination)
    (level : Level settings.tokenize files k destination destination.Settled)
    {id : String} {commit : SourceCommit} (here : ids[k]? = some id)
    (known : source.metadata id = .ok commit) :
    ∃ staged, destination.stage ((Plan.paths commit).map (changeTo settings.tokenize (files (k + 1)))) =
        (.ok (), staged) ∧
      Stands settings.tokenize ids files top k commits staged ∧
      Mirrors settings.tokenize (files (k + 1)) staged.index ∧
      staged.repository.commits = destination.repository.commits := by
  have small : k + 1 ≤ ids.length := (List.getElem?_eq_some_iff.1 here).1
  have before := linear.proper k (Nat.le_of_succ_le small)
  have after := linear.proper (k + 1) small
  obtain ⟨goal, mirrors, leads⟩ := stands.leadsTo linear level here known
  have regular : destination.Regular := by
    rcases level with mirrors | ⟨mirrors, -⟩
    · exact mirrors.regular
    · exact mirrors.regular
  have distinct : (((Plan.paths commit).map (changeTo settings.tokenize (files (k + 1)))).map
      FileChange.path).Nodup :=
    (map_path_of_changes (linear.changes_eq here known settings)).symm ▸ nodup_paths commit
  obtain ⟨staged, put, clean, alike, index, saved⟩ :=
    stands.clean.stage_to regular (mirrors.plain after) distinct
      (stands.stageable fits (linear.honest k _ commit here known) before after) leads
  exact ⟨staged, put, ⟨clean, alike.top.trans stands.place, saved.trans index.symm,
    stands.chain.of_core alike.core, stands.replayed⟩, index ▸ mirrors,
    (Repository.core_eq_iff.1 alike.core).1⟩

/-- **What was staged** for the next commit is sealed, or it stays staged. -/
theorem Stands.sealStaged (linear : Linear source ids files)
    (stands : Stands settings.tokenize ids files top k commits destination)
    (mirrors : Mirrors settings.tokenize (files (k + 1)) destination.index)
    {id : String} {commit : SourceCommit} (here : ids[k]? = some id)
    (known : source.metadata id = .ok commit) :
    ∃ result next, Transcode.sealStaged settings destination commit = (result, next) ∧
      Mirrors settings.tokenize (files (k + 1)) next.index ∧
      ((∃ fault, result = .error (.sealing commit.id fault) ∧
          Stands settings.tokenize ids files top k commits next) ∨
        (result = .ok () ∧ (next.repository.commits ≠ destination.repository.commits →
          ∃ made, Stands settings.tokenize ids files top (k + 1) (made :: commits) next))) := by
  have honest := linear.honest k id commit here known
  obtain ⟨clean, place, saved, chain, replayed⟩ := stands
  rcases destination.commitIndex_cases (Trailer.message commit.description commit.id)
    settings.identity commit.time commit.offsetMinutes with
    ⟨signature, parent, signed, tip, whole, sealed⟩ | ⟨-, fault, failed⟩
  · cases chain.tipCommit.symm.trans tip
    have keeps := Destination.kept_withRepository destination (destination.repository.advance
      (destination.nextCommit commits.head? (Trailer.message commit.description commit.id) signature))
    refine ⟨_, _, sealStaged_of_ok sealed, keeps.index ▸ mirrors, Or.inr ⟨rfl, fun grown => ?_⟩⟩
    have fresh := fresh_of_advance grown
    rw [chain.commits_eq] at fresh
    refine ⟨_, keeps.clean clean, keeps.top.trans place, ?_, Destination.chain_seal chain signature fresh,
      replayed.next here (isId_ofObject _ _) ?_ mirrors⟩
    · rw [keeps.saved, keeps.index, saved]
    · rw [Destination.source?_nextCommit _ _ whole, honest.id_eq,
        Trailer.source?_message _ (linear.isId id (List.mem_of_getElem? here)), honest.unnamed]
      rfl
  · exact ⟨_, _, sealStaged_of_error failed, mirrors, Or.inl ⟨fault, rfl,
      ⟨⟨clean.home, clean.working, clean.plain, clean.holds⟩, place, saved,
        Chain.of_core (a := destination.repository) rfl chain, replayed⟩⟩⟩

/-- **Replaying the next commit** leads to the mirror of the next files.  Either the commit
is sealed, or it is left staged. -/
theorem convert_stands (linear : Linear source ids files)
    (fits : ∀ k path content, files k path = some content → Disk.Fits top (Utf8.encode path))
    (stands : Stands settings.tokenize ids files top k commits destination)
    (level : Level settings.tokenize files k destination destination.Settled)
    {id : String} {commit : SourceCommit} (here : ids[k]? = some id)
    (known : source.metadata id = .ok commit) :
    ∃ result next, convert source settings none destination commit = (result, next) ∧
      Mirrors settings.tokenize (files (k + 1)) next.index ∧
      ((∃ fault, result = .error (.sealing commit.id fault) ∧
          Stands settings.tokenize ids files top k commits next) ∨
        (result = .ok () ∧ (next.repository.commits ≠ destination.repository.commits →
          ∃ made, Stands settings.tokenize ids files top (k + 1) (made :: commits) next))) := by
  obtain ⟨staged, put, stands', mirrors, same⟩ := stands.stage linear fits level here known
  rw [convert_of_staged (linear.changes_eq here known settings) put, ← same]
  exact stands'.sealStaged linear mirrors here known

/-- What was left staged is not staged again where the destination is not settled: the
commit fails, and the run goes on without it. -/
theorem convert_unsettled (linear : Linear source ids files)
    (fits : ∀ k path content, files k path = some content → Disk.Fits top (Utf8.encode path))
    (stands : Stands settings.tokenize ids files top k commits destination)
    (ahead : Mirrors settings.tokenize (files (k + 1)) destination.index)
    (unsettled : ¬ destination.Settled) {id : String} {commit : SourceCommit}
    (here : ids[k]? = some id) (known : source.metadata id = .ok commit) :
    ∃ error next, convert source settings none destination commit = (.error error, next) ∧
      error.isFatal = false := by
  have honest := linear.honest k id commit here known
  have small : k + 1 ≤ ids.length := (List.getElem?_eq_some_iff.1 here).1
  have before := linear.proper k (Nat.le_of_succ_le small)
  have after := linear.proper (k + 1) small
  obtain ⟨path, content, other, entry, there, notBinary, found, touching⟩ :
      ∃ path content other entry, files k path = some content ∧ Plan.isBinary path = false ∧
        destination.index.get? other = some entry ∧
          ¬ TreePath.Apart (TreePath.ofString path) other := by
    unfold Destination.Settled at unsettled
    simp only [not_forall] at unsettled
    obtain ⟨tree, head, place, own, other, entry, atHead, found, touching⟩ := unsettled
    rw [stands.chain.headTree?] at head
    cases k with
    | zero =>
        cases stands.replayed
        cases head
    | succ k =>
        obtain ⟨newest, first, mirrors⟩ := stands.replayed.newest
        rw [first] at head
        cases head
        obtain ⟨path, content, rfl, there, notBinary, -⟩ := (mirrors place own).1 atHead
        exact ⟨path, content, other, entry, there, notBinary, found, touching⟩
  have gone : files (k + 1) path = none := by
    rw [Option.eq_none_iff_forall_ne_some]
    intro kept still
    have own := ahead.get? notBinary
    rw [still] at own
    exact touching ((ahead.plain after).apart _ _ _ _ own found)
  have touched : path ∈ Plan.paths commit := by
    by_cases member : path ∈ Plan.paths commit
    · exact member
    · have same := honest.others before after path notBinary member
      rw [gone, there] at same
      cases same
  obtain ⟨error, next, failed, mild⟩ := stands.clean.stage_blocked
    (stands.stageable fits honest before after)
    (fun removed member => by
      obtain ⟨touched, inside, same⟩ := List.mem_map.1 member
      obtain ⟨rfl, none⟩ := changeTo_eq_remove same
      rw [ahead.get? (mem_paths.1 inside).2.2, none]
      rfl)
    ⟨path, List.mem_map.2 ⟨path, touched, by rw [changeTo, gone]⟩, other, entry, found, touching⟩
  exact ⟨error, next, convert_of_unstaged (linear.changes_eq here known settings) failed, mild⟩

/-! ## New and opened destinations -/

theorem stands_create (workspace : Workspace) (vacant : workspace.disk.at? top = some .vacant) :
    Stands tokenize ids files top 0 [] (workspace.create (top ++ [TreePath.gitDirectory]) false) where
  clean := Destination.clean_create workspace vacant
  place := List.dropLast_concat
  saved := rfl
  chain := Destination.chain_create _ _ _
  replayed := .nothing

theorem Stands.reopen (stands : Stands tokenize ids files top k commits destination) {disk : Disk}
    (same : disk.at? top = destination.disk.at? top) :
    Stands tokenize ids files top k commits { destination.reopen with disk } where
  clean := by
    have index : destination.reopen.index = destination.index := stands.saved
    refine ⟨stands.clean.home, stands.clean.working, ?_, ?_⟩
    · show destination.reopen.index.Plain
      rw [index]
      exact stands.clean.plain
    · show Disk.Holds disk destination.top destination.reopen.index
      rw [index]
      exact stands.clean.holds.elsewhere (by rw [stands.place, same])
  place := stands.place
  saved := rfl
  chain := stands.chain
  replayed := stands.replayed

end Stands

end Transcode

end TokenBlame
