/-
# TokenBlame.Proofs.Viewer.Cache -- the mapping that is kept is never stale

A viewer builds the mapping of a destination anew only when HEAD names another commit than
at the last time.  Whatever is done to a destination between two questions (`Alters`), its
store is only extended, so the history of the commit that the mapping was built at stays
what it was, also while HEAD is elsewhere.  A mapping that could not be built leaves the
older one in its place, which is right for its own commit still.

`Session` is every sequence of such changes and questions, with the answers that were given;
`Coherent` is what each of its steps preserves, and each answer is the mapping that is built
at that moment (`answers_eq_built`).
-/
import TokenBlame.Proofs.Transcode.Stored
import TokenBlame.Viewer

set_option autoImplicit false

namespace TokenBlame.Viewer

open Git

/-! ## Sessions -/

/-- What is done to a destination between two questions. -/
inductive Alters : Repository → Repository → Prop where
  /-- A run, of any source and however it ends. -/
  | run (source : RevisionSource) (settings : Transcode.Settings) (state : Transcode.State) :
      Alters state.destination.repository
        (Transcode.run source settings state).2.destination.repository
  /-- Someone else's commit is stored. -/
  | stored {repository : Repository} (commit : Commit) :
      (∀ id ∈ commit.parents, id ∈ repository.commits.map (·.id)) →
      Alters repository (repository.store commit)
  /-- HEAD and the branches are moved, forwards, backwards or elsewhere, or get damaged. -/
  | moved {repository : Repository} (head : String) (branches : Table String ObjectId)
      (damaged : List String) :
      Alters repository { repository with head, branches, damaged }

/-- A viewer after changes and questions in any order, with the answers, the newest last, and
the destination that each was given for. -/
inductive Session : Repository → Viewer → List (Repository × Except Error Mapping) → Prop where
  | opened {repository : Repository} (engine : BlameEngine) :
      Grown repository.commits → Session repository { engine } []
  | altered {before after : Repository} {viewer : Viewer}
      {answers : List (Repository × Except Error Mapping)} :
      Session before viewer answers → Alters before after → Session after viewer answers
  | asked {repository : Repository} {viewer : Viewer}
      {answers : List (Repository × Except Error Mapping)} :
      Session repository viewer answers →
      Session repository (viewer.mapping repository).2
        (answers ++ [(repository, (viewer.mapping repository).1)])

theorem Alters.extends {before after : Repository} (altered : Alters before after)
    (grown : Grown before.commits) : before.Extends after := by
  cases altered with
  | run source settings state => exact Transcode.run_extends source settings grown
  | stored commit parents => exact .store grown parents
  | moved head branches damaged => exact .of_eq grown rfl

/-! ## What is kept -/

/-- The mapping of the commits behind a head. -/
def mappingAt (repository : Repository) (head : Option ObjectId) : Except Error Mapping :=
  Mapping.ofHistory ((repository.historyOf head).map fun commit => (commit.id.hex, commit.message))

/-- The commit at HEAD is stored, if HEAD names one. -/
def Stored (repository : Repository) (head : Option ObjectId) : Prop :=
  ∀ id, head = some id → (repository.find? id).isSome

/-- What a viewer keeps is the mapping of the commits behind the head that it was built at,
wherever HEAD is now. -/
structure Coherent (repository : Repository) (viewer : Viewer) : Prop where
  grown : Grown repository.commits
  kept : ∀ head mapping, viewer.cache = some (head, mapping) →
    Stored repository head ∧ mappingAt repository head = .ok mapping

section Coherent

variable {before after repository : Repository} {viewer : Viewer}

theorem Coherent.opened (engine : BlameEngine) (grown : Grown repository.commits) :
    Coherent repository { engine } where
  grown := grown
  kept := fun _ _ none => nomatch none

theorem mappingAt_extends (extended : before.Extends after) (grown : Grown before.commits)
    {head : Option ObjectId} (stored : Stored before head) :
    mappingAt after head = mappingAt before head := by
  unfold mappingAt
  rw [historyOf_extends extended grown stored]

theorem Coherent.altered (coherent : Coherent before viewer) (altered : Alters before after) :
    Coherent after viewer := by
  have extended := altered.extends coherent.grown
  refine ⟨extended.grown, fun head mapping own => ?_⟩
  obtain ⟨stored, built⟩ := coherent.kept head mapping own
  refine ⟨fun id same => ?_, ?_⟩
  · obtain ⟨commit, found⟩ := Option.isSome_iff_exists.1 (stored id same)
    rw [extended.find? found]
    rfl
  · rw [mappingAt_extends extended coherent.grown stored, built]

/-- Where HEAD can be read and its commit is stored, the mapping that is built is that of the
commits behind it. -/
theorem mapping_eq_mappingAt {head : Option ObjectId} (tip : repository.tip = .ok head)
    (stored : Stored repository head) :
    Destination.mapping repository = mappingAt repository head := by
  have there : ∃ parent, repository.tipCommit = .ok parent := by
    cases head with
    | none => exact ⟨none, tipCommit_eq_ok_iff.2 ⟨tip, fun _ none => nomatch none⟩⟩
    | some id =>
        obtain ⟨commit, found⟩ := Option.isSome_iff_exists.1 (stored id rfl)
        obtain rfl := id_of_find? found
        exact ⟨some commit, tipCommit_eq_ok_iff.2
          ⟨tip, fun _ same => Option.some.inj same ▸ found⟩⟩
  obtain ⟨parent, there⟩ := there
  rw [Destination.mapping_of_tipCommit there, Repository.history_eq, (tip_eq_ok_iff.1 tip).2,
    mappingAt]

/-- Where a mapping is built, the commit at HEAD is stored. -/
theorem stored_of_mapping {mapping : Mapping} {head : Option ObjectId}
    (tip : repository.tip = .ok head) (built : Destination.mapping repository = .ok mapping) :
    Stored repository head := by
  obtain ⟨parent, there, -⟩ := Destination.of_mapping_ok built
  obtain ⟨named, stored⟩ := tipCommit_eq_ok_iff.1 there
  obtain rfl : head = parent.map (·.id) := Except.ok.inj (tip.symm.trans named)
  intro id own
  obtain ⟨commit, same, rfl⟩ := Option.map_eq_some_iff.1 own
  rw [stored commit same]
  rfl

/-- **A question** is answered with the mapping that is built, and what is kept stays right. -/
theorem Coherent.asked (coherent : Coherent repository viewer) :
    (viewer.mapping repository).1 = Destination.mapping repository ∧
      Coherent repository (viewer.mapping repository).2 := by
  unfold Viewer.mapping
  cases tip : repository.tip with
  | error fault =>
      refine ⟨?_, coherent⟩
      rw [Destination.mapping_of_unread (tipCommit_of_unread tip)]
  | ok head =>
      dsimp only
      cases fresh : viewer.cache.filter fun kept => kept.1 == head with
      | some kept =>
          obtain ⟨own, same⟩ := Option.filter_eq_some_iff.1 fresh
          obtain ⟨name, mapping⟩ := kept
          obtain rfl : name = head := by simpa using same
          obtain ⟨stored, built⟩ := coherent.kept name mapping own
          dsimp only
          rw [mapping_eq_mappingAt tip stored, built]
          exact ⟨rfl, coherent⟩
      | none =>
          dsimp only
          cases built : Destination.mapping repository with
          | error error => exact ⟨rfl, coherent⟩
          | ok mapping =>
              refine ⟨rfl, coherent.grown, ?_⟩
              rintro _ _ ⟨⟩
              have stored := stored_of_mapping tip built
              exact ⟨stored, by rw [← mapping_eq_mappingAt tip stored, built]⟩

end Coherent

section Session

variable {repository : Repository} {viewer : Viewer}
  {answers : List (Repository × Except Error Mapping)}

theorem Session.coherent (session : Session repository viewer answers) :
    Coherent repository viewer := by
  induction session with
  | opened engine grown => exact .opened engine grown
  | altered _ change ih => exact ih.altered change
  | asked _ ih => exact ih.asked.2

/-- **Every answer** of a session is the mapping that is built from the destination at that
moment, or the same error. -/
theorem answers_eq_built (session : Session repository viewer answers) :
    ∀ answer ∈ answers, answer.2 = Destination.mapping answer.1 := by
  induction session with
  | opened => exact fun _ member => absurd member List.not_mem_nil
  | altered _ _ ih => exact ih
  | asked session ih =>
      intro answer member
      rcases List.mem_append.1 member with earlier | last
      · exact ih answer earlier
      · rw [List.mem_singleton.1 last]
        exact session.coherent.asked.1

end Session

/-! ## A head that leaves and returns -/

namespace Returning

/-- A new destination. -/
def empty : Repository := Transcode.OneFile.state.destination.repository

/-- The destination after a run. -/
def replayed : Repository :=
  (Transcode.run Transcode.OneFile.source {} Transcode.OneFile.state).2.destination.repository

/-- A first commit of someone else that names no source commit. -/
def plain : Commit :=
  .create ∅ [] ⟨[0x6D], [0x6D], 0, 0⟩ ⟨[0x6D], [0x6D], 0, 0⟩ (Utf8.encode "by hand")

def stored : Repository := replayed.store plain

/-- HEAD is at that commit, on another branch. -/
def aside : Repository :=
  { stored with head := "side", branches := stored.branches.insert "side" plain.id }

/-- HEAD is at the replayed commit again. -/
def back : Repository := { aside with head := "master" }

def first : Viewer := (({} : Viewer).mapping empty).2
def second : Viewer := (first.mapping replayed).2
def third : Viewer := (second.mapping aside).2

/-- The answers: for the new destination, after the run, at the foreign commit and when HEAD has
returned. -/
def answers : List (Repository × Except Error Mapping) :=
  [(empty, (({} : Viewer).mapping empty).1), (replayed, (first.mapping replayed).1),
    (aside, (second.mapping aside).1), (back, (third.mapping back).1)]

theorem session : Session back (third.mapping back).2 answers := by
  have new : Session empty {} [] := .opened .hunks trivial
  have run := Alters.run Transcode.OneFile.source {} Transcode.OneFile.state
  have foreign : Alters replayed stored := .stored plain fun _ member => nomatch member
  have leaves : Alters stored aside := .moved _ _ _
  have returns : Alters aside back := .moved _ _ _
  exact ((((new.asked.altered run).asked.altered foreign).altered leaves).asked.altered
    returns).asked

/-- How many commits an answer knows, if there is a mapping. -/
def size? : Except Error Mapping → Option Nat
  | .ok mapping => some mapping.size
  | .error _ => none

end Returning

/-- The mapping is built twice, cannot be built at a commit without a trailer, and is right again
when HEAD has returned. -/
theorem returning_head_mapped :
    Returning.answers.map (fun answer => Returning.size? answer.2) =
        [some 0, some 1, none, some 1] ∧
      ∀ answer ∈ Returning.answers, answer.2 = Destination.mapping answer.1 :=
  ⟨by decide +kernel, answers_eq_built Returning.session⟩

end TokenBlame.Viewer
