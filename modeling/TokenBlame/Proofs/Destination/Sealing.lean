/-
# TokenBlame.Proofs.Destination.Sealing -- committing the index

The index is committed on top of HEAD unless the identity makes no signature, HEAD cannot be
read or the message holds a NUL (`commitIndex_cases`).  Either way index and working tree stay
what they are (`Kept`), and a commit whose id is new makes a chain one longer (`chain_seal`).

A new repository is clean, and its index is empty (`clean_create`).
-/
import TokenBlame.Proofs.Destination.Staging
import TokenBlame.Proofs.Git.Chain
import TokenBlame.Proofs.Trailer
import TokenBlame.Workspace

set_option autoImplicit false

namespace TokenBlame

open Git

/-! ## Writing into the repository's own directory -/

section Directory

variable {disk : Disk} {top : TreePath} {tree : Snapshot}

theorem Disk.Holds.recordBranches (holds : Disk.Holds disk top tree) (bare : Bool)
    (repository : Repository) :
    Disk.Holds (Directory.recordBranches disk (top ++ [TreePath.gitDirectory]) bare repository)
      top tree := by
  unfold Directory.recordBranches
  generalize repository.branches.entries.flatMap _ = files
  induction files generalizing disk with
  | nil => exact holds
  | cons file files ih =>
      rw [List.foldl_cons]
      apply ih
      rw [List.append_assoc, List.singleton_append]
      exact holds.fill _ _

theorem Disk.Holds.create (holds : Disk.Holds disk top tree) (bare : Bool) :
    Disk.Holds (Directory.create disk (top ++ [TreePath.gitDirectory]) bare) top tree := by
  unfold Directory.create
  generalize Directory.skeleton bare = files
  induction files generalizing disk with
  | nil => exact holds
  | cons file files ih =>
      rw [List.foldl_cons]
      apply ih
      rw [List.append_assoc, List.singleton_append]
      exact holds.put _ _

end Directory

/-! ## Repositories with the same commits -/

theorem Git.Repository.core_eq_iff {a b : Repository} :
    b.core = a.core ↔ b.commits = a.commits ∧ b.branches = a.branches ∧ b.head = a.head ∧
      b.damaged = a.damaged := by
  unfold Repository.core
  rw [Repository.mk.injEq]
  simp

theorem Git.Chain.of_core {a b : Repository} {commits : List Commit} (same : b.core = a.core)
    (chain : Chain a commits) : Chain b commits := by
  obtain ⟨stored, branches, head, damaged⟩ := Repository.core_eq_iff.1 same
  refine ⟨stored.trans chain.commits_eq, ?_, ?_, chain.linked, chain.distinct⟩
  · rw [← chain.headId, Repository.headId?, Repository.headId?, branches, head]
  · rw [← chain.sound, damaged, head]

namespace Destination

/-! ## What committing leaves alone -/

/-- Destinations with the same index, saved and not, and the same working tree. -/
structure Kept (before after : Destination) : Prop where
  home : after.home = before.home
  bare : after.bare = before.bare
  index : after.index = before.index
  saved : after.saved = before.saved
  holds : ∀ tree, before.home = before.top ++ [TreePath.gitDirectory] →
    Disk.Holds before.disk before.top tree → Disk.Holds after.disk before.top tree

theorem Kept.top {before after : Destination} (kept : Kept before after) :
    after.top = before.top :=
  top_congr kept.home

theorem Kept.mirrored {before after : Destination} (kept : Kept before after)
    (mirrored : before.Mirrored) : after.Mirrored where
  home := by rw [kept.home, kept.top, mirrored.home]
  working := kept.bare.trans mirrored.working
  proper := kept.index ▸ mirrored.proper
  holds := by
    rw [kept.index, kept.top]
    exact kept.holds _ mirrored.home mirrored.holds

theorem Kept.clean {before after : Destination} (kept : Kept before after)
    (clean : before.Clean) : after.Clean :=
  (kept.mirrored clean.mirrored).clean (kept.index ▸ clean.plain)

theorem kept_withRepository (destination : Destination) (repository : Repository) :
    Kept destination (destination.withRepository repository) where
  home := rfl
  bare := rfl
  index := rfl
  saved := rfl
  holds := by
    intro tree home holds
    show Disk.Holds (Directory.recordBranches destination.disk destination.home _ _) _ _
    rw [home]
    exact holds.recordBranches _ _

/-! ## Committing -/

section Committing

variable {destination : Destination} {commits : List Commit} {message : String}
  {identity : Identity} {time offset : Int}

/-- What is left of an attempt to commit: the tree of the index, which is stored first. -/
def uncommitted (destination : Destination) : Destination :=
  { destination with repository := destination.repository.storeTree destination.index }

theorem commitIndex_of_unsigned {fault : GitFault}
    (unsigned : Signature.clean identity.name identity.email time offset = .error fault) :
    destination.commitIndex message identity time offset = (.error fault, destination.uncommitted) := by
  rw [commitIndex, unsigned]
  rfl

section Signed

variable {signature : Signature} {parent : Option Commit} {fault : GitFault}
  (signed : Signature.clean identity.name identity.email time offset = .ok signature)
include signed

theorem commitIndex_of_unreadable (unreadable : destination.repository.tipCommit = .error fault) :
    destination.commitIndex message identity time offset = (.error fault, destination.uncommitted) := by
  rw [commitIndex, signed, unreadable]
  rfl

theorem commitIndex_of_nul (tip : destination.repository.tipCommit = .ok parent)
    (nul : message.toList.contains '\x00' = true) :
    destination.commitIndex message identity time offset =
      (.error .embeddedNul, destination.uncommitted) := by
  rw [commitIndex, signed, tip]
  exact if_pos nul

theorem commitIndex_of_whole (tip : destination.repository.tipCommit = .ok parent)
    (whole : message.toList.contains '\x00' = false) :
    destination.commitIndex message identity time offset =
      (.ok (destination.nextCommit parent message signature).id,
        destination.withRepository (destination.repository.advance
          (destination.nextCommit parent message signature))) := by
  rw [commitIndex, signed, tip]
  exact if_neg (ne_true_of_eq_false whole)

end Signed

/-- **The index is committed** on top of HEAD, or no more than its tree is stored. -/
theorem commitIndex_cases (destination : Destination) (message : String) (identity : Identity)
    (time offset : Int) :
    (∃ signature parent,
      Signature.clean identity.name identity.email time offset = .ok signature ∧
      destination.repository.tipCommit = .ok parent ∧
      message.toList.contains '\x00' = false ∧
      destination.commitIndex message identity time offset =
        (.ok (destination.nextCommit parent message signature).id,
          destination.withRepository (destination.repository.advance
            (destination.nextCommit parent message signature)))) ∨
    (∀ signature parent,
      Signature.clean identity.name identity.email time offset = .ok signature →
      destination.repository.tipCommit = .ok parent → message.toList.contains '\x00' = true) ∧
    ∃ fault, destination.commitIndex message identity time offset =
      (.error fault, destination.uncommitted) := by
  cases signed : Signature.clean identity.name identity.email time offset with
  | error fault =>
      exact Or.inr ⟨fun _ _ same => (nomatch same), fault, commitIndex_of_unsigned signed⟩
  | ok signature =>
      cases tip : destination.repository.tipCommit with
      | error fault =>
          exact Or.inr ⟨fun _ _ _ same => (nomatch same), fault,
            commitIndex_of_unreadable signed tip⟩
      | ok parent =>
          cases nul : message.toList.contains '\x00' with
          | true => exact Or.inr ⟨fun _ _ _ _ => rfl, _, commitIndex_of_nul signed tip nul⟩
          | false =>
              exact Or.inl ⟨signature, parent, rfl, rfl, rfl, commitIndex_of_whole signed tip nul⟩

/-- A commit with a new id makes the chain one longer. -/
theorem chain_seal (chain : Chain destination.repository commits) (signature : Signature)
    (fresh : ∀ other ∈ commits,
      other.id ≠ (destination.nextCommit commits.head? message signature).id) :
    let commit := destination.nextCommit commits.head? message signature
    Chain (destination.repository.advance commit) (commit :: commits) := by
  refine chain.advance ?_ fresh
  cases commits <;> rfl

theorem source?_nextCommit (parent : Option Commit) (signature : Signature)
    (whole : message.toList.contains '\x00' = false) :
    Trailer.source? (destination.nextCommit parent message signature).message =
      Trailer.source? message :=
  Trailer.source?_create _ _ _ _ whole

end Committing

/-! ## New repositories -/

/-- A new repository in an empty directory is clean. -/
theorem clean_create (workspace : Workspace) {top : TreePath}
    (vacant : workspace.disk.at? top = some .vacant) :
    (workspace.create (top ++ [TreePath.gitDirectory]) false).Clean := by
  have place : (workspace.create (top ++ [TreePath.gitDirectory]) false).top = top :=
    List.dropLast_concat
  refine ⟨?_, rfl, Snapshot.plain_empty, ?_⟩
  · rw [place]
    rfl
  · rw [place]
    exact (Disk.holds_vacant vacant).create false

theorem chain_create (workspace : Workspace) (home : TreePath) (bare : Bool) :
    Chain (workspace.create home bare).repository [] := chain_fresh

end Destination

end TokenBlame
