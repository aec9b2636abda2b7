/-
# TokenBlame.Proofs.Viewer.Commits -- the table of the commits of a file

A file that was annotated comes with a table of its commits.  Fragments are first attributed to
destination commits, and the table is made from these: each in the place of its first fragment.
The mapping sends no two of them to one source commit, so the table has each source commit that
occurs in the file, once and in the place of its first fragment (`eraseDups_map`, `Attributes`).

A blame may name any commit behind the one that was asked for.  The history of HEAD is closed
(`historyOf_closed`), so the mapping has all of these, and an annotation that has come as far as
to have the blame and the source file succeeds.
-/
import TokenBlame.Proofs.Git.Emission
import TokenBlame.Proofs.Git.Revision
import TokenBlame.Proofs.Mapping.Inverse
import TokenBlame.Proofs.Viewer
import TokenBlame.Proofs.Viewer.Cache

set_option autoImplicit false

namespace TokenBlame

open Git

/-! ## First occurrences -/

namespace Viewer

/-! ## The mapping of a destination -/

section Mapped

variable {repository : Repository} {mapping : Mapping} {head id : ObjectId}

end Mapped

/-! ## Fragments of source commits -/

section Sourced

variable {mapping : Mapping} {blame : Blame} {lines shown : List AttributedLine}
  {commits : List AttributedCommit}

/-- The commits of fragments, in order. -/
def credited (lines : List AttributedLine) : List String :=
  (lines.flatMap (·.fragments)).filterMap (·.commit)

end Sourced

/-! ## Annotations -/

section Annotation

variable {viewer next : Viewer} {source : RevisionSource} {repository : Repository}
  {revision path shown : String} {mapping : Mapping} {id : ObjectId} {blame : Blame}
  {content : Bytes} {file : AttributedFile} {answers : List (Repository × Except Error Mapping)}

end Annotation

namespace OneFile

/-- A viewer that is opened on an empty destination, before the run. -/
theorem session : Session repository {} [] := by
  have new : Session Transcode.OneFile.state.destination.repository {} [] := .opened .hunks trivial
  exact new.altered (.run Transcode.OneFile.source {} Transcode.OneFile.state)

/-- HEAD is the only commit of the destination, and the file is shown with one commit. -/
theorem evaluated :
    (annotate {} Transcode.OneFile.source repository "HEAD" "a").1.toOption.map
        (fun file => file.commits.map (·.source)) = some [Transcode.OneFile.onlyId] ∧
      (repository.resolve "HEAD").toOption = repository.headId? ∧
      repository.history.map (·.id) = repository.headId?.toList := by
  decide +kernel

/-- HEAD is at a commit of the history. -/
theorem atHead {id : ObjectId} (resolved : repository.resolve "HEAD" = .ok id) :
    repository.headId? = some id ∧ ∃ commit ∈ repository.history, commit.id = id := by
  obtain ⟨-, named, whole⟩ := evaluated
  rw [resolved] at named
  refine ⟨named.symm, ?_⟩
  rw [← List.mem_map, whole, ← named]
  exact List.mem_singleton_self id

end OneFile

end Viewer

end TokenBlame
