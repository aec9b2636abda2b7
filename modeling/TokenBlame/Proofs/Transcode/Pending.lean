/-
# TokenBlame.Proofs.Transcode.Pending -- what a run sets out to do

On a chain of commits a run lists what lies behind the last source commit that was
replayed, and leaves out what was replayed before (`pending_of_chain`).  It sets out to do
the front of that, as long as the limit allows (`prepare_eq_ok`).
-/
import TokenBlame.Proofs.Mapping
import TokenBlame.Proofs.Mining
import TokenBlame.Transcode

set_option autoImplicit false

namespace TokenBlame.Transcode

open Git

variable {source : RevisionSource} {settings : Settings} {destination : Destination}

/-! ## What is pending -/

/-- The pending commits of a chain. -/
theorem pending_of_chain {commits : List Commit} {made : List String}
    (chain : Chain destination.repository commits) (names : Destination.Names commits made)
    (distinct : made.Nodup) :
    pending source settings destination =
      match made.head? with
      | none => source.list ⟨settings.start, settings.stop⟩
      | some last =>
          (source.list ⟨.after last, settings.stop⟩).map
            (List.filter fun id => !made.contains id) := by
  obtain ⟨mapping, mapped, tells⟩ := Destination.mapping_of_chain chain names distinct
  have length : (commits.map (·.id.hex)).length = made.length := by
    rw [List.length_map, names.length]
  have known : ∀ id, mapping.toDestination.contains id = made.contains id := by
    intro id
    rw [Bool.eq_iff_iff, Table.contains, Option.isSome_iff_exists, List.contains_iff_mem]
    constructor
    · rintro ⟨hex, found⟩
      exact (List.of_mem_zip ((tells.toDestination _ _).1 found)).2
    · intro member
      rw [← List.map_snd_zip (Nat.le_of_eq length.symm)] at member
      obtain ⟨⟨hex, id⟩, inside, rfl⟩ := List.mem_map.1 member
      exact ⟨hex, (tells.toDestination _ _).2 inside⟩
  unfold pending
  rw [Destination.headSource_of_chain chain names]
  cases made.head? with
  | none => rfl
  | some last =>
      simp only [bind, Except.bind]
      cases source.list ⟨.after last, settings.stop⟩ with
      | error error => rfl
      | ok ids =>
          rw [mapped]
          simp only [known]
          rfl

/-! ## Limits -/

theorem limited_isPrefix (limit : Option Nat) (ids : List String) : (limited limit ids).1 <+: ids := by
  unfold limited
  split
  · exact List.prefix_refl _
  · split
    · exact List.take_prefix _ _
    · exact List.prefix_refl _

theorem limited_eq_of_completed {limit : Option Nat} {ids : List String}
    (completed : (limited limit ids).2 = true) : (limited limit ids).1 = ids := by
  unfold limited at completed ⊢
  split at completed
  · rfl
  · split at completed
    · cases completed
    · rename_i small
      rw [if_neg small]

/-! ## Preparation -/

/-- The service that a run uses. -/
def serviceOf (settings : Settings) : Except Error (Option CommentService) :=
  match settings.comments with
  | none => .ok none
  | some service => some <$> service

/-- The commits that a run sets out to replay, and whether these are all there are. -/
def planned (source : RevisionSource) (settings : Settings) (destination : Destination) :
    Except Error (List SourceCommit × Bool) := do
  let ids ← pending source settings destination
  let commits ← Mining.mine source (limited settings.limit ids).1
  return (commits, (limited settings.limit ids).2)

/-- The service is asked for first, whatever it is then. -/
theorem prepare_eq (source : RevisionSource) (settings : Settings) (destination : Destination) :
    prepare source settings destination = (do
      let service ← serviceOf settings
      let plan ← planned source settings destination
      return (service, plan)) := by
  unfold prepare serviceOf planned
  cases settings.comments with
  | none =>
      simp only [bind_assoc, pure_bind]
      rfl
  | some service => simp only [bind_assoc, pure_bind]

/-- What a run sets out to do is a front of what is pending. -/
theorem prepare_eq_ok {service : Option CommentService} {commits : List SourceCommit}
    {completed : Bool} :
    prepare source settings destination = .ok (service, commits, completed) ↔
      serviceOf settings = .ok service ∧ ∃ ids, pending source settings destination = .ok ids ∧
        (limited settings.limit ids).2 = completed ∧
        (limited settings.limit ids).1.mapM source.metadata = .ok commits := by
  rw [prepare_eq]
  unfold planned
  simp only [bind_eq_ok_iff, Mining.mine_eq_ok_iff]
  constructor
  · rintro ⟨_, served, _, ⟨ids, listed, mined, each, ⟨⟩⟩, ⟨⟩⟩
    exact ⟨served, ids, listed, rfl, each⟩
  · rintro ⟨served, ids, listed, rfl, each⟩
    exact ⟨service, served, _, ⟨ids, listed, commits, each, rfl⟩, rfl⟩

theorem run_of_prepare_error {state : State} {error : Error}
    (unprepared : prepare source settings state.destination = .error error) :
    run source settings state = (.error error, state) := by
  rw [run, unprepared]

theorem run_of_blocked {state : State} {plan : Option CommentService × List SourceCommit × Bool}
    {error : Error} (prepared : prepare source settings state.destination = .ok plan)
    (blocked : state.log.start = .error error) :
    run source settings state = (.error error, state) := by
  rw [run, prepared]
  dsimp only
  rw [blocked]

/-- A run that cannot begin leaves everything as it is. -/
theorem run_unprepared {state : State} {error : Error}
    (idle : prepare source settings state.destination = .error error ∨
      state.log.start = .error error) :
    ∃ error', run source settings state = (.error error', state) := by
  cases prepared : prepare source settings state.destination with
  | error own => exact ⟨own, run_of_prepare_error prepared⟩
  | ok plan =>
      rcases idle with same | blocked
      · rw [prepared] at same
        cases same
      · exact ⟨error, run_of_blocked prepared blocked⟩

/-- A run cannot begin, or it was prepared and has its log open. -/
theorem run_begins (source : RevisionSource) (settings : Settings) (state : State) :
    (∃ error, run source settings state = (.error error, state)) ∨
      ∃ service commits completed log,
        prepare source settings state.destination = .ok (service, commits, completed) ∧
        state.log.start = .ok log := by
  cases prepared : prepare source settings state.destination with
  | error error => exact Or.inl (run_unprepared (Or.inl prepared))
  | ok plan =>
      cases opens : state.log.start with
      | error error => exact Or.inl (run_unprepared (Or.inr opens))
      | ok log => exact Or.inr ⟨plan.1, plan.2.1, plan.2.2, log, rfl, rfl⟩

/-- A run that can begin ends the way its replay does. -/
theorem run_of_replay {state next : State} {service : Option CommentService}
    {commits : List SourceCommit} {completed : Bool} {log : ErrorLog} {result : Except Error Unit}
    (prepared : prepare source settings state.destination = .ok (service, commits, completed))
    (opens : state.log.start = .ok log)
    (replayed : replay source settings service { state with log } commits = (result, next)) :
    run source settings state = (result.map fun _ => completed, next) := by
  rw [run, prepared]
  dsimp only
  rw [opens]
  dsimp only
  rw [replayed]
  cases result <;> rfl

end TokenBlame.Transcode
