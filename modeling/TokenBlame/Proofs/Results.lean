/-
# TokenBlame.Proofs.Results -- what succeeds in several steps

Two steps succeed when each does (`bind_eq_ok_iff`), and what may be refused succeeds when it is
not (`refuse_eq_ok_iff`).  `mapM` succeeds when it does for each element (`mapM_eq_ok_iff`), and
fails with the first element that fails (`mapM_eq_error_iff`).
-/
import Mathlib.Data.List.Forall2

set_option autoImplicit false

namespace TokenBlame

variable {ε α β : Type}

/-! ## One step after the other -/

/-- What succeeds in two steps succeeds in each. -/
theorem bind_eq_ok_iff {first : Except ε α} {second : α → Except ε β} {y : β} :
    first >>= second = .ok y ↔ ∃ x, first = .ok x ∧ second x = .ok y := by
  cases first with
  | error error =>
      constructor
      · rintro ⟨⟩
      · rintro ⟨_, ⟨⟩, -⟩
  | ok x =>
      constructor
      · exact fun later => ⟨x, rfl, later⟩
      · rintro ⟨_, ⟨⟩, later⟩
        exact later

theorem map_eq_ok_iff {first : Except ε α} {f : α → β} {y : β} :
    first.map f = .ok y ↔ ∃ x, first = .ok x ∧ y = f x := by
  cases first with
  | error error => simp [Except.map]
  | ok x => simp [Except.map, eq_comm]

theorem throw_eq_error (error : ε) : (throw error : Except ε α) = .error error := rfl

/-- What is refused under a condition succeeds where that does not hold. -/
theorem refuse_eq_ok_iff {c : Prop} [Decidable c] {error : ε} {next : Except ε α} {y : α} :
    (if c then .error error else next) = .ok y ↔ ¬ c ∧ next = .ok y := by
  by_cases refused : c
  · rw [if_pos refused]
    exact ⟨fun done => (nomatch done), fun both => absurd refused both.1⟩
  · rw [if_neg refused]
    exact ⟨fun done => ⟨refused, done⟩, And.right⟩

/-! ## One element after the other -/

theorem mapM_eq_ok_iff {f : α → Except ε β} {xs : List α} {ys : List β} :
    xs.mapM f = .ok ys ↔ List.Forall₂ (fun x y => f x = .ok y) xs ys := by
  induction xs generalizing ys with
  | nil =>
      rw [List.mapM_nil, List.forall₂_nil_left_iff]
      constructor
      · intro same
        cases same
        rfl
      · rintro rfl
        rfl
  | cons x xs ih =>
      rw [List.mapM_cons, List.forall₂_cons_left_iff]
      constructor
      · intro all
        obtain ⟨y, first, all⟩ := bind_eq_ok_iff.1 all
        obtain ⟨zs, rest, all⟩ := bind_eq_ok_iff.1 all
        exact ⟨y, zs, first, ih.1 rest, (Except.ok.inj all).symm⟩
      · rintro ⟨y, zs, first, rest, rfl⟩
        rw [first, ih.2 rest]
        rfl

/-- What fails for a list fails for one of its elements, the first for which it does. -/
theorem mapM_eq_error_iff {f : α → Except ε β} {xs : List α} {error : ε} :
    xs.mapM f = .error error ↔ ∃ front ys x back, xs = front ++ x :: back ∧
      List.Forall₂ (fun x y => f x = .ok y) front ys ∧ f x = .error error := by
  constructor
  · intro all
    induction xs with
    | nil =>
        rw [List.mapM_nil] at all
        cases all
    | cons x xs ih =>
        rw [List.mapM_cons] at all
        cases first : f x with
        | error own =>
            rw [first] at all
            cases all
            exact ⟨[], [], x, xs, rfl, .nil, first⟩
        | ok y =>
            rw [first] at all
            cases rest : xs.mapM f with
            | ok ys =>
                rw [rest] at all
                cases all
            | error own =>
                rw [rest] at all
                cases all
                obtain ⟨front, ys, x', back, rfl, told, failed⟩ := ih rest
                exact ⟨x :: front, y :: ys, x', back, rfl, .cons first told, failed⟩
  · rintro ⟨front, ys, x, back, rfl, told, failed⟩
    rw [List.mapM_append, mapM_eq_ok_iff.2 told, List.mapM_cons, failed]
    rfl

/-- What succeeds for each element succeeds for all of them. -/
theorem mapM_ok_of_forall {f : α → Except ε β} {g : α → β} {xs : List α}
    (each : ∀ x ∈ xs, f x = .ok (g x)) : xs.mapM f = .ok (xs.map g) := by
  rw [mapM_eq_ok_iff, List.forall₂_map_right_iff, List.forall₂_same]
  exact each

/-- What is among the results is the result for some element. -/
theorem exists_of_mem_mapM {f : α → Except ε β} {xs : List α} {ys : List β}
    (all : xs.mapM f = .ok ys) {y : β} (member : y ∈ ys) : ∃ x ∈ xs, f x = .ok y := by
  rw [mapM_eq_ok_iff] at all
  induction all with
  | nil => cases member
  | cons own _ ih =>
      rcases List.mem_cons.1 member with rfl | later
      · exact ⟨_, List.mem_cons_self, own⟩
      · obtain ⟨x, inside, here⟩ := ih later
        exact ⟨x, List.mem_cons_of_mem _ inside, here⟩

end TokenBlame
