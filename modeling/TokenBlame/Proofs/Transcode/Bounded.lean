/-
# TokenBlame.Proofs.Transcode.Bounded -- runs that stay in their range

A run that takes up where another left off lists what is not behind HEAD's source commit,
and the start of its range does not count any more.  It stays in the range exactly if that
commit leads back to all that the start of the range hides (`Spans`); after a run that ended
on a side branch it need not.

Where it does, every commit that runs with the same bounds seal belongs to the range, and
once such runs have come to the end without a failure a further one changes nothing
(`runs_stay_in_range`).
-/
import TokenBlame.Proofs.Transcode.Branching

set_option autoImplicit false

namespace TokenBlame.Transcode

open Git

section Bounded

variable {source : RevisionSource} {ancestry : Ancestry} {settings : Settings}
  {destination : Destination} {state : State} {made ids : List String} {top : TreePath}
  {start : RangeStart} {stop : String}

/-- HEAD's source commit leads back to what the start of the range hides, as far as the end
of the range leads there. -/
def Spans (ancestry : Ancestry) (settings : Settings) (destination : Destination) : Prop :=
  ∀ last, destination.headSource = .ok (some last) → ∀ id, ancestry.UpTo settings.stop id →
    ancestry.Hides settings.start id → ancestry.Reaches last id

/-- A run in a range, from a destination whose HEAD spans what the range hides. -/
structure Bounded (source : RevisionSource) (ancestry : Ancestry) (start : RangeStart)
    (stop : String) (settings : Settings) (state : State) : Prop where
  begins : settings.start = start
  ends : settings.stop = stop
  unforged : RunUnforged source settings state
  spans : Spans ancestry settings state.destination

/-- **Nothing hidden is pending** where HEAD spans what the range hides. -/
theorem shown_of_pending (follows : Follows source ancestry)
    (rooted : Rooted ancestry made destination) (spans : Spans ancestry settings destination)
    (found : pending source settings destination = .ok ids) :
    ∀ id ∈ ids, ¬ ancestry.Hides settings.start id := by
  intro id member hidden
  rcases rooted.pending_cases found with ⟨-, listed⟩ | ⟨last, back, all, rfl, listed, rfl⟩
  · exact ((follows.listed _ _ listed id).1 member).2 hidden
  · obtain ⟨upTo, apart⟩ := (follows.listed _ _ listed id).1 (List.mem_filter.1 member).1
    exact apart ⟨last, rooted.named last List.mem_cons_self,
      spans last rooted.recalls.headSource id upTo hidden⟩

/-- Where nothing hidden is pending HEAD spans what the range hides. -/
theorem spans_of_pending (follows : Follows source ancestry)
    (rooted : Rooted ancestry made destination)
    (within : ∀ id ∈ made, ¬ ancestry.Hides settings.start id)
    (found : pending source settings destination = .ok ids)
    (shown : ∀ id ∈ ids, ¬ ancestry.Hides settings.start id) :
    Spans ancestry settings destination := by
  intro last head id upTo hidden
  rw [rooted.recalls.headSource] at head
  rcases rooted.pending_cases found with ⟨rfl, -⟩ | ⟨newest, back, all, rfl, listed, rfl⟩
  · cases head
  · cases head
    -- otherwise it would be pending
    by_contra apart
    refine shown id (List.mem_filter.2 ⟨(follows.listed _ _ listed id).2 ⟨upTo, ?_⟩, ?_⟩) hidden
    · rintro ⟨other, same, reaches⟩
      rw [rooted.named last List.mem_cons_self] at same
      cases same
      exact apart reaches
    · have new : id ∉ last :: back := fun member => within id member hidden
      simpa using new

/-- Runs from bounded destinations seal commits of the range only. -/
theorem reached_within (follows : Follows source ancestry) (legible : Legible source)
    (reached : Reached (Bounded source ancestry start stop) source top state) :
    ∃ made, Rooted ancestry made state.destination ∧
      ∀ id ∈ made, ancestry.UpTo stop id ∧ ¬ ancestry.Hides start id := by
  induction reached with
  | fresh workspace log logPlace vacant =>
      exact ⟨[], rooted_create workspace _, fun id none => absurd none List.not_mem_nil⟩
  | reopen disk log logPlace _ same ih =>
      obtain ⟨made, rooted, within⟩ := ih
      exact ⟨made, ⟨rooted.recalls, rooted.distinct, rooted.named⟩, within⟩
  | run settings _ bounded ih =>
      obtain ⟨made, rooted, within⟩ := ih
      obtain ⟨rfl, rfl, unforged, spans⟩ := bounded
      rcases run_rooted follows legible unforged rooted with ⟨error, ran⟩ |
        ⟨ids, result, next, sealed, found, ran, front, rooted', -⟩
      · rw [ran]
        exact ⟨made, rooted, within⟩
      · rw [ran]
        refine ⟨_, rooted', fun id member => ?_⟩
        rcases List.mem_append.1 member with new | before
        · have pending := front.subset (List.mem_reverse.1 new)
          exact ⟨((of_pending follows rooted found).2 id pending).2.1,
            shown_of_pending follows rooted spans found id pending⟩
        · exact within id before

/-- A run with nothing pending leaves the destination as it is. -/
theorem run_nothing (nothing : ∀ ids, pending source settings state.destination = .ok ids →
    ids = []) : (run source settings state).2.destination = state.destination := by
  rcases run_begins source settings state with
    ⟨error, ran⟩ | ⟨service, commits, completed, log, prepared, opens⟩
  · rw [ran]
  · obtain ⟨-, ids, found, -, mined⟩ := prepare_eq_ok.1 prepared
    obtain rfl := nothing ids found
    have none : (limited settings.limit []).1 = [] :=
      List.prefix_nil.1 (limited_isPrefix settings.limit [])
    rw [none] at mined
    cases mined
    rw [run_of_replay prepared opens rfl]

/-- **Runs stay in their range** as long as HEAD spans what the range hides whenever one
begins.  This is so exactly if no commit outside of the range is pending; and once runs in
which no commit fails have come to the end, a further one leaves the destination as it is. -/
theorem runs_stay_in_range (follows : Follows source ancestry) (legible : Legible source)
    (reached : Reached (Bounded source ancestry start stop) source top state) :
    (∀ ids, source.list ⟨start, stop⟩ = .ok ids →
      ∀ id ∈ sealedSources state.destination, id ∈ ids) ∧
    (∀ settings ids, settings.start = start → settings.stop = stop →
      pending source settings state.destination = .ok ids →
      (Spans ancestry settings state.destination ↔
        ∀ id ∈ ids, ¬ ancestry.Hides settings.start id)) ∧
    (Reached (fun settings state => Bounded source ancestry start stop settings state ∧
        Unfailing source settings state) source top state →
      ∀ settings next, Bounded source ancestry start stop settings state →
        Unfailing source settings state → run source settings state = (.ok true, next) →
        ∀ again, Bounded source ancestry start stop again next →
          (run source again next).2.destination = next.destination) := by
  obtain ⟨made, rooted, within⟩ := reached_within follows legible reached
  refine ⟨?_, ?_, ?_⟩
  · intro ids listed id member
    rw [rooted.recalls.sealedSources, List.mem_reverse] at member
    exact (follows.listed _ _ listed id).2 (within id member)
  · rintro settings ids rfl rfl found
    exact ⟨fun spans => shown_of_pending follows rooted spans found,
      spans_of_pending follows rooted (fun id member => (within id member).2) found⟩
  · rintro whole settings next ⟨rfl, rfl, unforged, -⟩ unfailing ran again ⟨same, bound, -, spans⟩
    obtain ⟨made, rooted, closed⟩ := reached_rooted follows legible (whole.mono fun _ _ both =>
      ⟨both.1.begins, both.1.unforged, both.2⟩)
    obtain ⟨sealed, rooted', -, all⟩ :=
      Replays.run ⟨rfl, unforged, unfailing⟩ follows legible rooted closed
    rw [ran] at rooted' all
    apply run_nothing
    intro ids found
    rw [List.eq_nil_iff_forall_not_mem]
    intro id member
    obtain ⟨-, upTo, new⟩ := (of_pending follows rooted' found).2 id member
    have shown := shown_of_pending follows rooted' spans found id member
    rw [bound] at upTo
    rw [same] at shown
    exact new (all rfl id upTo shown)

end Bounded

namespace TwoBranches

/-- A run over the one branch without its first commit. -/
def settings : Settings := { start := .including mainId }

theorem bounded : Bounded source graph (.including mainId) "HEAD" settings state where
  begins := rfl
  ends := rfl
  unforged := (replays_first settings [mainId] mainId rfl (by decide +kernel) rfl rfl
    (clear mainId) (single mainId) (by decide +kernel)).unforged
  spans last head := nomatch head

end TwoBranches

/-- A run over the one branch without its first commit seals nothing but the second. -/
theorem two_branches_bounded :
    let next := (run TwoBranches.source TwoBranches.settings TwoBranches.state).2
    ∀ id ∈ sealedSources next.destination, id ∈ [TwoBranches.mainId] := by
  obtain ⟨inside, -⟩ := runs_stay_in_range TwoBranches.follows TwoBranches.legible
    (.run TwoBranches.settings (.fresh OneFile.workspace .absent none rfl) TwoBranches.bounded)
  exact inside [TwoBranches.mainId] (by decide +kernel)

end TokenBlame.Transcode
