/-
# TokenBlame.Proofs.Transcode.Owned -- sealed commits name their own source commits

The message that is made for a source commit names that commit, unless a whole trailer
stands in its description.  What counts is the description as it is in the message, without
its at signs: where one stood inside a trailer, there is a whole trailer without it
(`own_commit_named`).

A commit that names its own source commit is the one that the next run goes on behind.
-/
import TokenBlame.Proofs.Transcode.Accounts

set_option autoImplicit false

namespace TokenBlame.Transcode

open Git

/-- The message for a source commit names it exactly if its description names no commit, or
the same one first. -/
theorem source?_message_eq_iff {id : String} (isId : Trailer.IsId id) (description : String) :
    Trailer.source? (Trailer.message description id) = some id ↔
      ¬ Trailer.Bears (Trailer.quiet description) ∨
        Trailer.source? (Trailer.quiet description) = some id := by
  rw [Trailer.source?_message description isId, ← Trailer.source?_eq_none_iff]
  cases Trailer.source? (Trailer.quiet description) with
  | none => simp
  | some other => simp

section Sealed

variable {source : RevisionSource} {settings : Settings} {service : Option CommentService}
  {destination next : Destination} {commit : SourceCommit}

/-- HEAD is what was made of a commit that was sealed. -/
theorem tipCommit_of_sealed
    (converted : convert source settings service destination commit = (.ok (), next))
    (admits : ∀ made, replica? source settings service destination commit = some made →
      destination.repository.Admits made) :
    ∃ made parent, next.repository.tipCommit = .ok (some made) ∧
      Replicates settings commit parent made := by
  rcases convert_stages source settings service destination commit with
    ⟨wanted, made, parent, other, -, own, -, replicates, sealed, advanced⟩ |
    ⟨error, other, -, failed, -⟩
  · cases converted.symm.trans sealed
    have alone : (destination.stage wanted).2.repository.Admits made := by
      intro commit member same
      rw [destination.commits_stage] at member
      exact admits made own commit member same
    refine ⟨made, parent, ?_, replicates⟩
    rw [Repository.tipCommit_of_core advanced, tipCommit_advance alone]
  · cases converted.symm.trans failed

/-- Behind the source commit that HEAD names, what is listed and not mapped is pending. -/
theorem pending_of_headSource {last : String} (named : destination.headSource = .ok (some last)) :
    pending source settings destination = (do
      let ids ← source.list ⟨.after last, settings.stop⟩
      let mapping ← Destination.mapping destination.repository
      return ids.filter fun id => !(mapping.toDestination.contains id)) := by
  unfold pending
  rw [named]
  rfl

end Sealed

/-- **A commit names its own source commit** unless another trailer stands in its description
without the at signs.  Once it is sealed, that is what HEAD names, and the next run goes on
behind it. -/
theorem own_commit_named {commit : SourceCommit} (isId : Trailer.IsId commit.id) :
    (Trailer.source? (Trailer.message commit.description commit.id) = some commit.id ↔
      ¬ Trailer.Bears (Trailer.quiet commit.description) ∨
        Trailer.source? (Trailer.quiet commit.description) = some commit.id) ∧
    ∀ source settings service destination next,
      ¬ Trailer.Bears (Trailer.quiet commit.description) →
      convert source settings service destination commit = (.ok (), next) →
      (∀ made, replica? source settings service destination commit = some made →
        destination.repository.Admits made) →
      ∀ later : Destination, later.repository = next.repository →
        later.headSource = .ok (some commit.id) ∧
        ∀ settings : Settings, pending source settings later = (do
          let ids ← source.list ⟨.after commit.id, settings.stop⟩
          let mapping ← Destination.mapping later.repository
          return ids.filter fun id => !(mapping.toDestination.contains id)) := by
  refine ⟨source?_message_eq_iff isId commit.description, ?_⟩
  intro source settings service destination next free converted admits later same
  obtain ⟨made, parent, tip, replicates⟩ := tipCommit_of_sealed converted admits
  have own : Trailer.source? made.message = some commit.id := by
    rw [replicates.source?_message]
    exact (source?_message_eq_iff isId commit.description).2 (Or.inl free)
  have named : later.headSource = .ok (some commit.id) := by
    unfold Destination.headSource
    rw [same, tip]
    dsimp only
    rw [own]
  exact ⟨named, fun settings => pending_of_headSource named⟩

namespace OneFile

/-- The commit of the only file, with a description that names the marker and someone. -/
def mentioning : SourceCommit :=
  { commit with description := "@home: UltraBlame original commit: @none" }

end OneFile

/-- A commit whose description has the marker, but no id behind it, names its source commit
once it is sealed. -/
theorem mentioning_commit_named :
    Trailer.source? (Trailer.message OneFile.mentioning.description OneFile.onlyId) =
        some OneFile.onlyId ∧
      ∃ next, convert OneFile.source {} none OneFile.state.destination OneFile.mentioning =
          (.ok (), next) ∧ next.reopen.headSource = .ok (some OneFile.onlyId) := by
  have free : ¬ Trailer.Bears (Trailer.quiet OneFile.mentioning.description) :=
    Trailer.source?_eq_none_iff.1 (by decide +kernel)
  obtain ⟨named_iff, resumes⟩ := @own_commit_named OneFile.mentioning (by decide)
  refine ⟨named_iff.2 (Or.inl free), ?_⟩
  have done : (convert OneFile.source {} none OneFile.state.destination OneFile.mentioning).1 =
      .ok () := by decide +kernel
  refine ⟨_, Prod.ext done rfl, ?_⟩
  -- nothing is stored before
  exact (resumes OneFile.source {} none OneFile.state.destination _ free (Prod.ext done rfl)
    (fun made _ other member => absurd member List.not_mem_nil) _ rfl).1

end TokenBlame.Transcode
