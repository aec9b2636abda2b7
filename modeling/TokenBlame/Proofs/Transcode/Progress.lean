/-
# TokenBlame.Proofs.Transcode.Progress -- what a limited run gets done

In a history without branches HEAD's source commit marks a place: what stands in front of it
was replayed or passed over, and what comes behind it is pending (`Midway`).  The mark moves
with the commits that are sealed only.  So after a run that stopped at its limit fewer
commits are pending if it has sealed one, and otherwise the same ones again
(`rerun_progress`): a window of commits that all fail is met by every run.
-/
import TokenBlame.Proofs.Transcode.Branching

set_option autoImplicit false

namespace TokenBlame.Transcode

open Git

section Progress

variable {source : RevisionSource} {commits : List SourceCommit} {settings : Settings}
  {destination : Destination} {state : State} {top : TreePath} {count : Nat}
  {ids front rest made : List String}

/-- A run over a sequence of commits that makes commits with names of their own. -/
structure InSequence (source : RevisionSource) (commits : List SourceCommit)
    (settings : Settings) (state : State) : Prop where
  ends : ∃ count, EndsAt source settings.start commits settings.stop count
  unforged : RunUnforged source settings state

/-- A destination whose newest commit was made of the last source commit of a front of the
sequence, and the others of commits in that front. -/
structure Midway (ids front rest made : List String) (destination : Destination) : Prop where
  whole : ids = front ++ rest
  recalls : Recalls destination.repository made
  distinct : made.Nodup
  inside : ∀ id ∈ made, id ∈ front
  last : made.head? = front.getLast?

/-- **What is pending** is what comes behind the front, up to the end of the range. -/
theorem Midway.pending (midway : Midway (commits.map (·.id)) front rest made destination)
    (distinct : (commits.map (·.id)).Nodup)
    (ends : EndsAt source settings.start commits settings.stop count) :
    pending source settings destination =
      .ok (((commits.map (·.id)).take count).drop front.length) := by
  rw [pending_of_recalls midway.recalls midway.distinct]
  cases shape : made.head? with
  | none =>
      have none : front = [] := List.getLast?_eq_none_iff.1 (midway.last.symm.trans shape)
      dsimp only
      rw [ends.fromStart, none, List.map_take]
      rfl
  | some last =>
      obtain ⟨earlier, split⟩ := List.getLast?_eq_some_iff.1 (midway.last.symm.trans shape)
      have place : (commits.map (·.id))[earlier.length]? = some last := by
        rw [midway.whole, split, List.append_assoc, List.getElem?_append_right (Nat.le_refl _),
          Nat.sub_self]
        rfl
      rw [List.getElem?_map, Option.map_eq_some_iff] at place
      obtain ⟨commit, here, rfl⟩ := place
      have length : front.length = earlier.length + 1 := by rw [split, List.length_append]; rfl
      dsimp only
      rw [ends.behind _ _ here, length, List.map_drop, List.map_take]
      refine congrArg Except.ok (List.filter_eq_self.2 fun id member => ?_)
      -- what comes behind the front is not in it
      have later : id ∈ rest := by
        rw [← length, List.drop_take, midway.whole, List.drop_left] at member
        exact List.mem_of_mem_take member
      rw [midway.whole, List.nodup_append] at distinct
      have new : id ∉ made := fun before => distinct.2.2 id (midway.inside id before) id later rfl
      simpa using new

/-- Sealed commits of what is pending are in front of a mark behind the last of them. -/
theorem Midway.seal (midway : Midway ids front rest made destination) (distinct : ids.Nodup)
    {next : Destination} {begun left sealed : List String} {last : String}
    (recalls : Recalls next.repository (last :: (sealed ++ made)))
    (split : rest = begun ++ last :: left) (inside : sealed.reverse.Sublist begun) :
    Midway ids (front ++ (begun ++ [last])) left (last :: (sealed ++ made)) next where
  whole := by rw [midway.whole, split]; simp
  recalls := recalls
  distinct := by
    have apart := distinct
    rw [midway.whole, split, List.nodup_append, List.nodup_append, List.nodup_cons] at apart
    obtain ⟨-, ⟨begunNodup, -, beforeLast⟩, beforeRest⟩ := apart
    rw [List.nodup_cons, List.mem_append, List.nodup_append]
    have known : ∀ id ∈ sealed, id ∈ begun := fun id member =>
      inside.subset (List.mem_reverse.2 member)
    refine ⟨?_, List.nodup_reverse.1 (inside.nodup begunNodup), midway.distinct, ?_⟩
    · rintro (new | before)
      · exact beforeLast last (known last new) last List.mem_cons_self rfl
      · exact beforeRest last (midway.inside last before) last (by simp) rfl
    · rintro id new other before rfl
      exact beforeRest id (midway.inside id before) id
        (List.mem_append_left _ (known id new)) rfl
  inside := by
    intro id member
    rcases List.mem_cons.1 member with rfl | member
    · simp
    · rcases List.mem_append.1 member with new | before
      · have := inside.subset (List.mem_reverse.2 new)
        simp [this]
      · exact List.mem_append_left _ (midway.inside id before)
  last := by rw [← List.append_assoc, List.getLast?_concat]; rfl

/-- A list splits at the last element of a sublist of what stands in front of a cut. -/
theorem split_of_sublist_take {xs before : List String} {last : String} {cut : Nat}
    (inside : (before ++ [last]).Sublist (xs.take cut)) :
    ∃ begun left, xs = begun ++ last :: left ∧ before.Sublist begun ∧ begun.length < cut := by
  obtain ⟨begun, behind, whole, early, here⟩ := List.append_sublist_iff.1 inside
  obtain ⟨between, left, rfl⟩ := List.append_of_mem (List.singleton_sublist.1 here)
  refine ⟨begun ++ between, left ++ xs.drop cut, ?_,
    early.trans (List.sublist_append_left begun between), ?_⟩
  · conv => lhs; rw [← List.take_append_drop cut xs, whole]
    simp only [List.append_assoc, List.cons_append]
  · have length := List.length_take_le cut xs
    rw [whole] at length
    simp only [List.length_append, List.length_cons] at length ⊢
    omega

/-- A run moves the mark behind the last commit that it seals. -/
theorem Midway.run (midway : Midway (commits.map (·.id)) front rest made state.destination)
    (distinct : (commits.map (·.id)).Nodup) (legible : Legible source)
    (ends : EndsAt source settings.start commits settings.stop count)
    (unforged : RunUnforged source settings state) :
    ∃ front' rest' made',
      Midway (commits.map (·.id)) front' rest' made'
        (Transcode.run source settings state).2.destination ∧
      (front' = front ∧ made' = made ∨
        front.length < front'.length ∧ front'.length ≤ count ∧ made.length < made'.length) := by
  rcases run_recalls legible unforged midway.recalls with ⟨error, ran⟩ |
    ⟨ids, result, next, sealed, found, ran, inside, recalls, -⟩
  · rw [ran]
    exact ⟨front, rest, made, midway, Or.inl ⟨rfl, rfl⟩⟩
  · rw [ran]
    rcases List.eq_nil_or_concat' sealed with rfl | ⟨sealed, last, rfl⟩
    · exact ⟨front, rest, made,
        ⟨midway.whole, recalls, midway.distinct, midway.inside, midway.last⟩, Or.inl ⟨rfl, rfl⟩⟩
    · rw [midway.pending distinct ends, Except.ok.injEq, midway.whole, List.drop_take,
        List.drop_left] at found
      -- what was begun ends with the last commit that was sealed
      obtain ⟨begun, left, split, before, small⟩ := split_of_sublist_take (found ▸ inside)
      rw [List.reverse_concat, List.cons_append] at recalls
      have marked := midway.seal distinct recalls split (by rwa [List.reverse_reverse])
      refine ⟨_, _, _, marked, Or.inr ⟨?_, ?_, ?_⟩⟩
      all_goals
        simp only [List.length_append, List.length_cons, List.length_nil]
        omega

/-! ## Repeated runs -/

/-- What is reached by runs over a sequence is midway. -/
theorem reached_midway (distinct : (commits.map (·.id)).Nodup) (legible : Legible source)
    (reached : Reached (InSequence source commits) source top state) :
    ∃ front rest made, Midway (commits.map (·.id)) front rest made state.destination := by
  induction reached with
  | fresh workspace log logPlace vacant =>
      exact ⟨[], commits.map (·.id), [], rfl, recalls_create workspace _ false, List.nodup_nil,
        fun id none => absurd none List.not_mem_nil, rfl⟩
  | reopen disk log logPlace _ same ih =>
      obtain ⟨front, rest, made, midway⟩ := ih
      exact ⟨front, rest, made, midway.whole, midway.recalls, midway.distinct, midway.inside,
        midway.last⟩
  | run settings _ allowed ih =>
      obtain ⟨front, rest, made, midway⟩ := ih
      obtain ⟨⟨count, ends⟩, unforged⟩ := allowed
      obtain ⟨front', rest', made', midway', -⟩ := midway.run distinct legible ends unforged
      exact ⟨front', rest', made', midway'⟩

/-- The state after a number of runs with the same options. -/
def rerun (source : RevisionSource) (settings : Settings) (state : State) : Nat → State
  | 0 => state
  | count + 1 => (run source settings (rerun source settings state count)).2

/-- A run leaves a shorter end of what was pending if it seals a commit, and the same if it
does not. -/
theorem run_shortens (distinct : (commits.map (·.id)).Nodup) (legible : Legible source)
    (reached : Reached (InSequence source commits) source top state)
    (ends : EndsAt source settings.start commits settings.stop count)
    (unforged : RunUnforged source settings state) :
    ∃ ids ids', pending source settings state.destination = .ok ids ∧
      pending source settings (run source settings state).2.destination = .ok ids' ∧
      ids' <:+ ids ∧
      (ids'.length < ids.length ↔
        sealedSources (run source settings state).2.destination ≠
          sealedSources state.destination) := by
  obtain ⟨front, rest, made, midway⟩ := reached_midway distinct legible reached
  obtain ⟨front', rest', made', midway', moved⟩ := midway.run distinct legible ends unforged
  refine ⟨_, _, midway.pending distinct ends, midway'.pending distinct ends, ?_⟩
  rw [midway.recalls.sealedSources, midway'.recalls.sealedSources]
  rcases moved with ⟨rfl, rfl⟩ | ⟨further, bound, more⟩
  · exact ⟨List.suffix_refl _, by simp⟩
  · have inside : front'.length ≤ (commits.map (·.id)).length := by
      rw [midway'.whole, List.length_append]
      omega
    refine ⟨List.drop_suffix_drop_left _ (Nat.le_of_lt further), fun _ same => ?_, fun _ => ?_⟩
    · have length := congrArg List.length same
      rw [List.length_reverse, List.length_reverse] at length
      omega
    · rw [List.length_drop, List.length_drop, List.length_take]
      omega

theorem prepare_of_pending {other : Destination}
    (same : pending source settings other = pending source settings destination) :
    prepare source settings other = prepare source settings destination := by
  unfold prepare
  rw [same]

/-- As many runs in a row as seal something leave that much less pending. -/
theorem rerun_shortens (distinct : (commits.map (·.id)).Nodup) (legible : Legible source)
    (reached : Reached (InSequence source commits) source top state)
    (ends : EndsAt source settings.start commits settings.stop count)
    (found : pending source settings state.destination = .ok ids) (runs : Nat)
    (each : ∀ n < runs, RunUnforged source settings (rerun source settings state n) ∧
      sealedSources (rerun source settings state (n + 1)).destination ≠
        sealedSources (rerun source settings state n).destination) :
    Reached (InSequence source commits) source top (rerun source settings state runs) ∧
      ∃ ids', pending source settings (rerun source settings state runs).destination = .ok ids' ∧
        ids'.length + runs ≤ ids.length := by
  induction runs with
  | zero => exact ⟨reached, ids, found, Nat.le_refl _⟩
  | succ runs ih =>
      obtain ⟨reached', ids', found', less⟩ := ih fun n small => each n (Nat.lt_succ_of_lt small)
      obtain ⟨unforged, sealed⟩ := each runs (Nat.lt_succ_self runs)
      obtain ⟨same, shorter, found'', last, -, iff⟩ :=
        run_shortens distinct legible reached' ends unforged
      cases found'.symm.trans found''
      refine ⟨.run settings reached' ⟨⟨count, ends⟩, unforged⟩, shorter, last, ?_⟩
      have drops := iff.2 sealed
      omega

/-- **Progress.**  A run in a sequence leaves an end of what was pending: a shorter one if it
has sealed a commit, and otherwise the same, so that the next run sets out to do the same
again.  If every run that stops at its limit seals a commit, as many runs as commits are
pending, and one more, get to one that does not stop there. -/
theorem rerun_progress (distinct : (commits.map (·.id)).Nodup) (legible : Legible source)
    (reached : Reached (InSequence source commits) source top state)
    (ends : EndsAt source settings.start commits settings.stop count)
    (unforged : RunUnforged source settings state) :
    ∃ ids, pending source settings state.destination = .ok ids ∧
      (∀ result next, run source settings state = (result, next) →
        ∃ ids', pending source settings next.destination = .ok ids' ∧ ids' <:+ ids ∧
          (ids'.length < ids.length ↔
            sealedSources next.destination ≠ sealedSources state.destination) ∧
          (sealedSources next.destination = sealedSources state.destination →
            prepare source settings next.destination =
              prepare source settings state.destination)) ∧
      ((∀ n ≤ ids.length, RunUnforged source settings (rerun source settings state n) ∧
          ((run source settings (rerun source settings state n)).1 = .ok false →
            sealedSources (rerun source settings state (n + 1)).destination ≠
              sealedSources (rerun source settings state n).destination)) →
        ∃ n ≤ ids.length, (run source settings (rerun source settings state n)).1 ≠ .ok false) := by
  obtain ⟨ids, ids', found, found', ending, shorter⟩ :=
    run_shortens distinct legible reached ends unforged
  refine ⟨ids, found, ?_, fun each => ?_⟩
  · intro result next ran
    rw [ran] at found' shorter
    refine ⟨ids', found', ending, shorter, fun same => prepare_of_pending ?_⟩
    have whole : ids' = ids := ending.eq_of_length_le (Nat.not_lt.1 fun less => shorter.1 less same)
    rw [found', found, whole]
  · by_contra none
    have stops : ∀ n ≤ ids.length,
        (run source settings (rerun source settings state n)).1 = .ok false := fun n small => by
      by_contra other
      exact none ⟨n, small, other⟩
    obtain ⟨-, last, -, less⟩ := rerun_shortens distinct legible reached ends found (ids.length + 1)
      fun n small => ⟨(each n (Nat.le_of_lt_succ small)).1,
        (each n (Nat.le_of_lt_succ small)).2 (stops n (Nat.le_of_lt_succ small))⟩
    omega

end Progress

namespace TwoBranches

/-- The commits of one branch. -/
def branch : List SourceCommit := [commit rootId, commit mainId]

theorem ends : EndsAt source .root branch "HEAD" 2 where
  fromStart := by decide +kernel
  behind := by
    intro k known here
    match k with
    | 0 =>
        cases here
        decide +kernel
    | 1 =>
        cases here
        decide +kernel
    | k + 2 => cases here

theorem unforged : RunUnforged source { limit := some 1 } state :=
  (replays_first { limit := some 1 } [rootId, mainId] rootId rfl (by decide +kernel) rfl rfl
    (clear rootId) (single rootId) (by decide +kernel)).unforged

end TwoBranches

/-- A run for one of two commits leaves an end of both pending, a shorter one if it has
sealed the first. -/
theorem two_branches_progress :
    let next := (run TwoBranches.source { limit := some 1 } TwoBranches.state).2
    ∃ ids ids', pending TwoBranches.source { limit := some 1 } TwoBranches.state.destination =
        .ok ids ∧
      pending TwoBranches.source { limit := some 1 } next.destination = .ok ids' ∧ ids' <:+ ids ∧
      (ids'.length < ids.length ↔
        sealedSources next.destination ≠ sealedSources TwoBranches.state.destination) := by
  obtain ⟨ids, found, moves, -⟩ := @rerun_progress TwoBranches.source TwoBranches.branch
    { limit := some 1 } TwoBranches.state OneFile.top 2 (by decide) TwoBranches.legible
    (.fresh OneFile.workspace .absent none rfl) TwoBranches.ends TwoBranches.unforged
  obtain ⟨ids', found', ending, shorter, -⟩ := moves _ _ rfl
  exact ⟨ids, ids', found, found', ending, shorter⟩

end TokenBlame.Transcode
