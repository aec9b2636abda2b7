/-
# TokenBlame.Proofs.Text.Words -- the words of a line

A word at the front of a line is its first word, and what is behind it has the others
(`words_append`).  A line is blank exactly if it has no words (`trim_eq_nil_iff`).
-/
import TokenBlame.Text.Blank

set_option autoImplicit false

namespace TokenBlame

namespace Pieces

variable {α : Type} {keep : α → Bool}

theorem runs_cons_of_not {x : α} (skip : keep x = false) (rest : List α) :
    runs keep (x :: rest) = runs keep rest := by
  simp [runs, runsAux, consRun, skip]

theorem runsAux_append {run : List α} (kept : ∀ x ∈ run, keep x = true) (rest : List α) :
    runsAux keep (run ++ rest) = (run ++ (runsAux keep rest).1, (runsAux keep rest).2) := by
  induction run with
  | nil => rfl
  | cons x run ih =>
      have later := ih fun y member => kept y (List.mem_cons_of_mem _ member)
      unfold runsAux at later ⊢
      rw [List.cons_append, List.foldr_cons, later, kept x List.mem_cons_self]
      rfl

/-- A run at the front ends where the first element stands that is not kept. -/
theorem runs_append {run : List α} (nonempty : run ≠ []) (kept : ∀ x ∈ run, keep x = true)
    {rest : List α} (apart : ∀ x ∈ rest.head?, keep x = false) :
    runs keep (run ++ rest) = run :: runs keep rest := by
  have none : (runsAux keep rest).1 = [] := by
    cases rest with
    | nil => rfl
    | cons x rest =>
        have skip : keep x = false := apart x rfl
        simp [runsAux, skip]
  have others : runs keep rest = (runsAux keep rest).2 := by
    rw [runs, none]
    rfl
  rw [runs, runsAux_append kept, none, List.append_nil, others]
  simp [consRun, nonempty]

theorem runs_eq_nil_iff {xs : List α} : runs keep xs = [] ↔ ∀ x ∈ xs, keep x = false := by
  induction xs with
  | nil => simp [runs, runsAux, consRun]
  | cons x xs ih =>
      cases own : keep x with
      | false =>
          rw [runs_cons_of_not own, ih]
          simp [own]
      | true =>
          have some : runs keep (x :: xs) ≠ [] := by simp [runs, runsAux, consRun, own]
          simp [some, own]

end Pieces

namespace Blank

theorem words_append {word : List Char} (nonempty : word ≠ [])
    (visible : ∀ c ∈ word, isBlank c = false) {rest : List Char}
    (apart : ∀ c ∈ rest.head?, isBlank c = true) : words (word ++ rest) = word :: words rest :=
  Pieces.runs_append nonempty (by simpa using visible) (by simpa using apart)

theorem words_cons {c : Char} (blank : isBlank c = true) (rest : List Char) :
    words (c :: rest) = words rest :=
  Pieces.runs_cons_of_not (by simp [blank]) rest

theorem dropWhile_eq_nil_iff {text : List Char} :
    text.dropWhile isBlank = [] ↔ ∀ c ∈ text, isBlank c = true := by
  induction text with
  | nil => simp
  | cons c text ih =>
      rw [List.dropWhile_cons]
      split
      · rename_i blank
        simp [ih, blank]
      · rename_i visible
        simp [visible]

theorem trim_eq_nil_iff {text : List Char} : trim text = [] ↔ words text = [] := by
  unfold words
  rw [Pieces.runs_eq_nil_iff, trim, trimEnd, List.reverse_eq_nil_iff, dropWhile_eq_nil_iff]
  simp only [List.mem_reverse, Bool.not_eq_false']
  constructor
  · -- a front that is dropped is blank, and so is what is left
    intro behind c member
    rw [← List.takeWhile_append_dropWhile (p := isBlank) (l := text), List.mem_append] at member
    rcases member with front | left
    · exact List.all_eq_true.1 List.all_takeWhile c front
    · exact behind c left
  · intro blank c member
    exact blank c ((List.dropWhile_suffix isBlank).subset member)

end Blank

end TokenBlame
