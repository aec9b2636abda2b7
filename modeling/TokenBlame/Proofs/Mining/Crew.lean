/-
# TokenBlame.Proofs.Mining.Crew -- several workers mine the chunks

Workers take chunks, any that nobody has taken, and ask for their commits one after the other.
A chunk comes to its end with its last commit, or at the first that fails (`Step`).  When a chunk
has failed, those that are waiting may be left.  Who takes which chunk, and whose step is next, is
open.  There is a handle of the source for each worker, so whoever takes a chunk finds one.

A step keeps what is known of every chunk (`Kept.step`): a chunk that has ended has the result
that it has on its own.  So when nobody is at work any more, the workers have what `mineInOrder`
gives for the order in which their chunks ended (`Kept.outcome_eq`), and that is what the commits
give when they are asked for one by one (`Kept.mines`).
-/
import TokenBlame.Proofs.Mining
import Mathlib.Logic.Relation

set_option autoImplicit false

namespace TokenBlame.Mining

/-! ## Workers -/

/-- How far a chunk has come. -/
inductive Progress where
  /-- Nobody has taken the chunk. -/
  | waiting (ids : List String)
  /-- A worker is at it: what is known of its first commits, and those that are left. -/
  | asking (told : List SourceCommit) (left : List String)
  /-- What is known of all its commits. -/
  | ended (told : List SourceCommit)
  /-- One of its commits failed. -/
  | stopped (error : Error)

namespace Progress

/-- A worker is at the chunk. -/
def isAsking : Progress → Bool
  | .asking _ _ => true
  | _ => false

/-- The chunk has come to its end. -/
def isOver : Progress → Bool
  | .ended _ => true
  | .stopped _ => true
  | _ => false

/-- The result of a chunk, nothing as long as there is none. -/
def result : Progress → Except Error (List SourceCommit)
  | .ended told => .ok told
  | .stopped error => .error error
  | _ => .ok []

/-- The number of steps that are left. -/
def work : Progress → Nat
  | .waiting ids => ids.length + 2
  | .asking _ left => left.length + 1
  | _ => 0

/-- The number of steps that are left of several chunks. -/
def workAll : List Progress → Nat
  | [] => 0
  | progress :: rest => progress.work + workAll rest

theorem workAll_append (before after : List Progress) :
    workAll (before ++ after) = workAll before + workAll after := by
  induction before with
  | nil => exact (Nat.zero_add _).symm
  | cons progress before ih => rw [List.cons_append, workAll, workAll, ih, Nat.add_assoc]

end Progress

/-- Workers with the chunks. -/
structure Crew where
  /-- How many workers have no chunk. -/
  idle : Nat
  chunks : List Progress
  /-- The chunks that have come to their end, in this order. -/
  finished : List Nat := []

namespace Crew

/-- The beginning: a worker at least, and all chunks waiting. -/
def start (workers : Nat) (ids : List String) : Crew where
  idle := max workers 1
  chunks := (Pieces.chunksOf chunkSize ids).map .waiting

/-- What the chunks give together. -/
def outcome (crew : Crew) : Except Error (List SourceCommit) :=
  gather crew.finished (crew.chunks.map Progress.result)

/-- Nobody is at work, and there is a failure or nothing is left to be done. -/
def Over (crew : Crew) : Prop :=
  (∀ progress ∈ crew.chunks, progress.isAsking = false) ∧
    ((∃ error, crew.outcome = .error error) ∨ ∀ progress ∈ crew.chunks, progress.isOver = true)

/-- The number of steps that are left at most. -/
def work (crew : Crew) : Nat :=
  Progress.workAll crew.chunks

end Crew

/-- A worker comes to the end of its chunk. -/
inductive Closes (source : RevisionSource) : Progress → Progress → Prop
  | ends (told : List SourceCommit) : Closes source (.asking told []) (.ended told)
  | fails (told : List SourceCommit) (left : List String) {id : String} {error : Error} :
      source.metadata id = .error error →
      Closes source (.asking told (id :: left)) (.stopped error)

/-- What happens next. -/
inductive Step (source : RevisionSource) : Crew → Crew → Prop
  /-- A worker that has no chunk takes one. -/
  | takes {idle : Nat} {before after : List Progress} {finished : List Nat} (ids : List String) :
      Step source ⟨idle + 1, before ++ .waiting ids :: after, finished⟩
        ⟨idle, before ++ .asking [] ids :: after, finished⟩
  /-- A worker asks for the next commit of its chunk. -/
  | asks {idle : Nat} {before after : List Progress} {finished : List Nat}
      (told : List SourceCommit) (left : List String) {id : String} {commit : SourceCommit} :
      source.metadata id = .ok commit →
      Step source ⟨idle, before ++ .asking told (id :: left) :: after, finished⟩
        ⟨idle, before ++ .asking (told ++ [commit]) left :: after, finished⟩
  /-- A worker is done with its chunk. -/
  | closes {idle : Nat} {before after : List Progress} {finished : List Nat}
      {progress last : Progress} :
      Closes source progress last →
      Step source ⟨idle, before ++ progress :: after, finished⟩
        ⟨idle + 1, before ++ last :: after, finished ++ [before.length]⟩

/-- Any number of steps from the beginning. -/
def Reached (source : RevisionSource) (workers : Nat) (ids : List String) : Crew → Prop :=
  Relation.ReflTransGen (Step source) (Crew.start workers ids)

/-! ## What every step keeps -/

section Kept

variable {source : RevisionSource} {workers : Nat} {ids : List String} {crew next : Crew}

/-- What is known of a chunk is right. -/
inductive Stands (source : RevisionSource) : List String → Progress → Prop
  | waiting (ids : List String) : Stands source ids (.waiting ids)
  | asking {front : List String} {told : List SourceCommit} (left : List String) :
      List.Forall₂ (fun id commit => source.metadata id = .ok commit) front told →
      Stands source (front ++ left) (.asking told left)
  | ended {ids : List String} {progress : Progress} :
      progress.isOver = true → progress.result = chunk source ids → Stands source ids progress

theorem Stands.takes {ids left : List String} (stands : Stands source ids (.waiting left)) :
    Stands source ids (.asking [] left) := by
  cases stands with
  | waiting => exact .asking _ .nil
  | ended isOver => cases isOver

theorem Stands.asks {ids left : List String} {told : List SourceCommit} {id : String}
    {commit : SourceCommit} (stands : Stands source ids (.asking told (id :: left)))
    (own : source.metadata id = .ok commit) :
    Stands source ids (.asking (told ++ [commit]) left) := by
  cases stands with
  | @asking front _ _ known =>
      rw [List.append_cons]
      exact .asking left (List.rel_append known (.cons own .nil))
  | ended isOver => cases isOver

theorem Stands.closes {ids : List String} {progress last : Progress}
    (stands : Stands source ids progress) (closes : Closes source progress last) :
    Stands source ids last := by
  cases closes with
  | ends told =>
      cases stands with
      | asking _ known =>
          rw [List.append_nil]
          exact .ended rfl (mapM_eq_ok_iff.2 known).symm
      | ended isOver => cases isOver
  | fails told left failed =>
      cases stands with
      | asking _ known =>
          exact .ended rfl (mapM_eq_error_iff.2 ⟨_, _, _, _, rfl, known, failed⟩).symm
      | ended isOver => cases isOver

/-- A crew on its way. -/
structure Kept (source : RevisionSource) (workers : Nat) (ids : List String) (crew : Crew) :
    Prop where
  stands : List.Forall₂ (Stands source) (Pieces.chunksOf chunkSize ids) crew.chunks
  /-- Each worker has no chunk or one. -/
  manned : crew.idle + crew.chunks.countP Progress.isAsking = max workers 1
  closed : ∀ i, i ∈ crew.finished ↔
    ∃ progress, crew.chunks[i]? = some progress ∧ progress.isOver = true

theorem kept_start : Kept source workers ids (Crew.start workers ids) where
  stands := by
    rw [Crew.start, List.forall₂_map_right_iff, List.forall₂_same]
    exact fun piece _ => .waiting piece
  manned := by
    have none : ((Pieces.chunksOf chunkSize ids).map Progress.waiting).countP Progress.isAsking =
        0 := by
      rw [List.countP_eq_zero]
      intro progress member
      obtain ⟨piece, -, rfl⟩ := List.mem_map.1 member
      simp [Progress.isAsking]
    rw [Crew.start, none, Nat.add_zero]
  closed i := by
    constructor
    · exact fun none => absurd none List.not_mem_nil
    · rintro ⟨progress, here, isOver⟩
      obtain ⟨piece, -, rfl⟩ := List.mem_map.1 (List.mem_of_getElem? here)
      cases isOver

/-- One of several is replaced by one that stands as well. -/
theorem stands_replace {pieces : List (List String)} {before after : List Progress}
    {progress last : Progress}
    (all : List.Forall₂ (Stands source) pieces (before ++ progress :: after))
    (own : ∀ piece, Stands source piece progress → Stands source piece last) :
    List.Forall₂ (Stands source) pieces (before ++ last :: after) := by
  induction before generalizing pieces with
  | nil =>
      obtain ⟨piece, rest, first, others, rfl⟩ := List.forall₂_cons_right_iff.1 all
      exact .cons (own piece first) others
  | cons other before ih =>
      obtain ⟨piece, rest, first, others, rfl⟩ := List.forall₂_cons_right_iff.1 all
      exact .cons first (ih others)

/-- One that is not over is replaced: the others are over as before. -/
theorem closed_replace {before after : List Progress} {progress : Progress} {finished : List Nat}
    (closed : ∀ i, i ∈ finished ↔
      ∃ p, (before ++ progress :: after)[i]? = some p ∧ p.isOver = true)
    (notYet : progress.isOver = false) (last : Progress) (i : Nat) :
    (i ∈ finished ∨ i = before.length ∧ last.isOver = true) ↔
      ∃ p, (before ++ last :: after)[i]? = some p ∧ p.isOver = true := by
  have replaced :
      before ++ last :: after = (before ++ progress :: after).set before.length last := by
    simp
  rw [closed i]
  by_cases here : i = before.length
  · subst here
    simp [notYet]
  · rw [replaced, List.getElem?_set_ne (Ne.symm here)]
    simp [here]

/-- **A step** keeps what is known. -/
theorem Kept.step (kept : Kept source workers ids crew) (step : Step source crew next) :
    Kept source workers ids next := by
  cases step with
  | takes left =>
      refine ⟨stands_replace kept.stands fun piece own => own.takes, ?_, fun i => ?_⟩
      · have manned := kept.manned
        simp only [List.countP_append, List.countP_cons, Progress.isAsking] at manned ⊢
        simpa [Nat.add_assoc, Nat.add_comm, Nat.add_left_comm] using manned
      · have same := closed_replace kept.closed rfl (.asking [] left) i
        simpa [Progress.isOver] using same
  | @asks _ _ _ _ told left _ commit own =>
      refine ⟨stands_replace kept.stands fun piece stands => stands.asks own, ?_, fun i => ?_⟩
      · have manned := kept.manned
        simpa [List.countP_append, List.countP_cons, Progress.isAsking] using manned
      · have same := closed_replace kept.closed rfl (.asking (told ++ [commit]) left) i
        simpa [Progress.isOver] using same
  | @closes idle before after finished progress last closes =>
      have asked : progress.isAsking = true ∧ progress.isOver = false := by
        cases closes <;> exact ⟨rfl, rfl⟩
      have isLast : last.isAsking = false ∧ last.isOver = true := by
        cases closes <;> exact ⟨rfl, rfl⟩
      refine ⟨stands_replace kept.stands fun piece stands => stands.closes closes, ?_, fun i => ?_⟩
      · have manned := kept.manned
        simp only [List.countP_append, List.countP_cons, asked.1, isLast.1] at manned ⊢
        simpa [Nat.add_assoc, Nat.add_comm, Nat.add_left_comm] using manned
      · rw [← closed_replace kept.closed asked.2 last i]
        simp [isLast.2]

theorem Reached.kept (reached : Reached source workers ids crew) :
    Kept source workers ids crew := by
  induction reached with
  | refl => exact kept_start
  | tail _ step ih => exact ih.step step

/-! ## The end -/

/-- A step leaves less to be done. -/
theorem work_step (step : Step source crew next) : next.work < crew.work := by
  cases step with
  | takes left => simp [Crew.work, Progress.workAll_append, Progress.workAll, Progress.work]
  | asks told left own =>
      simp [Crew.work, Progress.workAll_append, Progress.workAll, Progress.work]
  | @closes idle before after finished progress last closes =>
      have done : last.work < progress.work := by
        cases closes <;> simp [Progress.work]
      simp only [Crew.work, Progress.workAll_append, Progress.workAll]
      omega

/-- Whoever has a chunk can go on with it. -/
theorem exists_step_of_asking {idle : Nat} {before after : List Progress} {finished : List Nat}
    {progress : Progress} (isAsking : progress.isAsking = true) :
    ∃ next, Step source ⟨idle, before ++ progress :: after, finished⟩ next := by
  cases progress with
  | asking told left =>
      cases left with
      | nil => exact ⟨_, .closes (.ends told)⟩
      | cons id left =>
          cases own : source.metadata id with
          | ok commit => exact ⟨_, .asks told left own⟩
          | error error => exact ⟨_, .closes (.fails told left own)⟩
  | waiting _ => cases isAsking
  | ended _ => cases isAsking
  | stopped _ => cases isAsking

/-- As long as it is not over, it goes on. -/
theorem Kept.progress (kept : Kept source workers ids crew) :
    crew.Over ∨ ∃ next, Step source crew next := by
  obtain ⟨idle, chunks, finished⟩ := crew
  by_cases busy : ∃ progress ∈ chunks, progress.isAsking = true
  · obtain ⟨progress, member, isAsking⟩ := busy
    obtain ⟨before, after, rfl⟩ := List.append_of_mem member
    exact Or.inr (exists_step_of_asking isAsking)
  · have resting : ∀ progress ∈ chunks, progress.isAsking = false := by
      intro progress member
      rw [← Bool.not_eq_true]
      exact fun isAsking => busy ⟨progress, member, isAsking⟩
    by_cases done : ∀ progress ∈ chunks, progress.isOver = true
    · exact Or.inl ⟨resting, Or.inr done⟩
    · -- nobody is at work, so there is a worker for a chunk that is waiting
      right
      obtain ⟨progress, member, waits⟩ : ∃ progress ∈ chunks, progress.isOver = false := by
        simpa using done
      have rests := resting progress member
      obtain ⟨left, rfl⟩ : ∃ left, progress = .waiting left := by
        cases progress with
        | waiting left => exact ⟨left, rfl⟩
        | asking _ _ => cases rests
        | ended _ => cases waits
        | stopped _ => cases waits
      have manned := kept.manned
      rw [List.countP_eq_zero.2 fun p inside => by rw [resting p inside]; simp,
        Nat.add_zero] at manned
      obtain ⟨free, rfl⟩ := Nat.exists_eq_add_of_le' (manned ▸ Nat.le_max_right workers 1)
      obtain ⟨before, after, rfl⟩ := List.append_of_mem member
      exact ⟨_, .takes left⟩

theorem Stands.result_eq {piece : List String} {progress : Progress}
    (stands : Stands source piece progress) (isOver : progress.isOver = true) :
    progress.result = chunk source piece := by
  cases stands with
  | waiting => cases isOver
  | asking => cases isOver
  | ended _ own => exact own

theorem exists_stands {pieces : List (List String)} {chunks : List Progress}
    (all : List.Forall₂ (Stands source) pieces chunks) {i : Nat} {progress : Progress}
    (here : chunks[i]? = some progress) :
    ∃ piece, pieces[i]? = some piece ∧ Stands source piece progress := by
  induction all generalizing i with
  | nil => cases here
  | cons own _ ih =>
      cases i with
      | zero =>
          cases here
          exact ⟨_, rfl, own⟩
      | succ i => exact ih here

/-- What has ended has the result that it has on its own. -/
theorem Kept.result_eq (kept : Kept source workers ids crew) {i : Nat} (ended : i ∈ crew.finished) :
    (crew.chunks.map Progress.result)[i]? = (results source ids)[i]? := by
  obtain ⟨progress, here, isOver⟩ := (kept.closed i).1 ended
  obtain ⟨piece, there, stands⟩ := exists_stands kept.stands here
  rw [results, List.getElem?_map, List.getElem?_map, here, there, Option.map_some,
    Option.map_some, stands.result_eq isOver]

/-- Where every chunk is over, all of them have ended, with their own results. -/
theorem Kept.all_ended (kept : Kept source workers ids crew)
    (all : ∀ progress ∈ crew.chunks, progress.isOver = true) :
    (∀ i < (results source ids).length, i ∈ crew.finished) ∧
      crew.chunks.map Progress.result = results source ids := by
  have length : (crew.chunks.map Progress.result).length = (results source ids).length := by
    rw [results, List.length_map, List.length_map, kept.stands.length_eq]
  have ended : ∀ i < (results source ids).length, i ∈ crew.finished := by
    intro i here
    rw [← length, List.length_map] at here
    exact (kept.closed i).2 ⟨_, List.getElem?_eq_getElem here, all _ (List.getElem_mem here)⟩
  refine ⟨ended, List.ext_getElem? fun i => ?_⟩
  by_cases here : i < (results source ids).length
  · exact kept.result_eq (ended i here)
  · rw [List.getElem?_eq_none (by omega), List.getElem?_eq_none (by omega)]

/-- **The workers have what mining gives** in the order in which their chunks ended. -/
theorem Kept.outcome_eq (kept : Kept source workers ids crew) (isOver : crew.Over) :
    crew.outcome = mineInOrder crew.finished source ids ∧
      Decides crew.finished (results source ids) := by
  rw [mineInOrder, ← results]
  rcases isOver.2 with ⟨error, failed⟩ | all
  · have same := gather_error_congr (fun i ended => kept.result_eq ended) failed
    exact ⟨failed.trans same.symm, decides_of_error same⟩
  · obtain ⟨ended, same⟩ := kept.all_ended all
    rw [Crew.outcome, same]
    exact ⟨rfl, decides_of_all ended⟩

/-- An outcome is what the commits give when they are asked for one by one. -/
structure Mines (source : RevisionSource) (ids : List String)
    (outcome : Except Error (List SourceCommit)) : Prop where
  /-- Mining succeeds exactly if every commit does. -/
  succeeds_iff : (∃ commits, outcome = .ok commits) ↔
    ∀ id ∈ ids, ∃ commit, source.metadata id = .ok commit
  /-- What is mined is what is known of each commit, in order. -/
  inOrder : ∀ commits, outcome = .ok commits →
    List.Forall₂ (fun id commit => source.metadata id = .ok commit) ids commits
  /-- A failure is that of one of the commits. -/
  failure : ∀ error, outcome = .error error → ∃ id ∈ ids, source.metadata id = .error error

/-- **Whatever the order** in which the chunks finish, they give what their commits give. -/
theorem mines_of_decides {finished : List Nat} (decides : Decides finished (results source ids)) :
    Mines source ids (mineInOrder finished source ids) where
  succeeds_iff := by
    constructor
    · rintro ⟨commits, mined⟩ id member
      have each := mapM_eq_ok_iff.1 ((mineInOrder_eq_ok_iff decides).1 mined)
      obtain ⟨i, here, rfl⟩ := List.mem_iff_getElem.1 member
      exact ⟨_, each.get here (each.length_eq ▸ here)⟩
    · intro each
      cases mined : mineInOrder finished source ids with
      | ok commits => exact ⟨commits, rfl⟩
      | error error =>
          obtain ⟨id, member, failed⟩ := exists_of_mineInOrder_error mined
          obtain ⟨commit, told⟩ := each id member
          rw [failed] at told
          cases told
  inOrder _ mined := mapM_eq_ok_iff.1 ((mineInOrder_eq_ok_iff decides).1 mined)
  failure _ failed := exists_of_mineInOrder_error failed

theorem Kept.mines (kept : Kept source workers ids crew) (isOver : crew.Over) :
    Mines source ids crew.outcome := by
  obtain ⟨same, decides⟩ := kept.outcome_eq isOver
  exact same ▸ mines_of_decides decides

end Kept

end TokenBlame.Mining
