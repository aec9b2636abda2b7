/-
# TokenBlame.Proofs.Text.Numeral -- numbers that are written and read again

A number that is written in decimal digits is read as that number, if it is in the range that
the reader takes: a number without a sign (`unsigned?_toString`) and one with a sign
(`signed64?_toString`).  No digit is white space, so a number is one word of a line.
-/
import TokenBlame.Text.Blank
import TokenBlame.Text.Numeral

set_option autoImplicit false

namespace TokenBlame.Numeral

theorem digit?_of_isDigit {c : Char} (digit : c.isDigit = true) :
    digit? c = some (c.toNat - '0'.toNat) := by
  have range : '0' ≤ c ∧ c ≤ '9' := by
    unfold Char.isDigit at digit
    rw [Bool.and_eq_true, decide_eq_true_eq, decide_eq_true_eq] at digit
    exact digit
  rw [digit?, if_pos range]

theorem foldl_digits {text : List Char} (digits : ∀ c ∈ text, c.isDigit = true) (value : Nat) :
    text.foldl (fun value c => value.bind fun v => (digit? c).map (v * 10 + ·)) (some value) =
      some (Nat.ofDigitChars 10 text value) := by
  induction text generalizing value with
  | nil => rfl
  | cons c text ih =>
      have first := digit?_of_isDigit (digits c List.mem_cons_self)
      have rest := ih fun d member => digits d (List.mem_cons_of_mem _ member)
      rw [List.foldl_cons, Option.bind_some, first, Option.map_some, rest, Nat.ofDigitChars_cons,
        Nat.mul_comm]

theorem isDigit_of_mem_toDigits {n : Nat} {c : Char} (member : c ∈ Nat.toDigits 10 n) :
    c.isDigit = true :=
  Nat.isDigit_of_mem_toDigits (by decide) (by decide) member

theorem digits?_toDigits (n : Nat) : digits? (Nat.toDigits 10 n) = some n := by
  have some : (Nat.toDigits 10 n).isEmpty = false := by simp
  rw [digits?, some, foldl_digits fun c => isDigit_of_mem_toDigits, Nat.ofDigitChars_ten_toDigits]
  rfl

/-- Digits have no sign in front. -/
theorem toDigits_eq_cons (n : Nat) :
    ∃ c rest, Nat.toDigits 10 n = c :: rest ∧ c ≠ '+' ∧ c ≠ '-' := by
  obtain ⟨c, rest, shape⟩ := List.exists_cons_of_ne_nil (Nat.toDigits_ne_nil (n := n) (b := 10))
  have digit : c.isDigit = true := isDigit_of_mem_toDigits (shape ▸ List.mem_cons_self)
  refine ⟨c, rest, shape, ?_, ?_⟩
  all_goals
    rintro rfl
    cases digit

/-- A number in the range is read as it was written. -/
theorem unsigned?_toString {bound n : Nat} (fits : n ≤ bound) :
    unsigned? bound (toString n).toList = some n := by
  have read := digits?_toDigits n
  obtain ⟨c, rest, shape, plus, -⟩ := toDigits_eq_cons n
  rw [Nat.toString_eq_repr, Nat.toList_repr, shape]
  rw [shape] at read
  unfold unsigned?
  split
  · rename_i same
    exact absurd (List.cons_eq_cons.1 same).1 plus
  · simp [read, fits]

/-- A signed number of 64 bits is read as it was written. -/
theorem signed64?_toString {n : Int} (low : range64.1 ≤ n) (high : n ≤ range64.2) :
    signed64? (toString n).toList = some n := by
  unfold signed64? signed?
  rw [Int.toString_eq_repr, Int.repr_eq_if]
  by_cases positive : 0 ≤ n
  · rw [if_pos positive]
    have read := digits?_toDigits n.toNat
    obtain ⟨c, rest, shape, plus, minus⟩ := toDigits_eq_cons n.toNat
    rw [Nat.toList_repr]
    rw [shape] at read ⊢
    split
    · rename_i same
      exact absurd (List.cons_eq_cons.1 same).1 plus
    · rename_i same
      exact absurd (List.cons_eq_cons.1 same).1 minus
    · simp [read, Int.toNat_of_nonneg positive, low, high]
  · rw [if_neg positive]
    obtain ⟨m, rfl⟩ : ∃ m : Nat, n = -m := ⟨(-n).toNat, by omega⟩
    have written : ("-" ++ (- -(m : Int)).toNat.repr).toList = '-' :: Nat.toDigits 10 m := by simp
    rw [written]
    simp [digits?_toDigits, low, high]

/-! ## Numbers as words -/

theorem not_isBlank_of_isDigit {c : Char} (digit : c.isDigit = true) : Blank.isBlank c = false := by
  unfold Char.isDigit at digit
  rw [Bool.and_eq_true, decide_eq_true_eq, decide_eq_true_eq] at digit
  have low : 48 ≤ c.toNat := digit.1
  have high : c.toNat ≤ 57 := digit.2
  simp only [Blank.isBlank, Bool.or_eq_false_iff, Bool.and_eq_false_iff, decide_eq_false_iff_not,
    beq_eq_false_iff_ne]
  omega

theorem not_isBlank_of_isHex {c : Char} (hex : isHex c = true) : Blank.isBlank c = false := by
  have range : (48 ≤ c.toNat ∧ c.toNat ≤ 57) ∨ (97 ≤ c.toNat ∧ c.toNat ≤ 102) ∨
      (65 ≤ c.toNat ∧ c.toNat ≤ 70) := by
    unfold isHex hexValue? at hex
    split at hex
    · rename_i digit
      exact Or.inl digit
    split at hex
    · rename_i lower
      exact Or.inr (Or.inl lower)
    split at hex
    · rename_i upper
      exact Or.inr (Or.inr upper)
    · cases hex
  simp only [Blank.isBlank, Bool.or_eq_false_iff, Bool.and_eq_false_iff, decide_eq_false_iff_not,
    beq_eq_false_iff_ne]
  omega

theorem not_isBlank_of_mem_toString {n : Nat} {c : Char} (member : c ∈ (toString n).toList) :
    Blank.isBlank c = false := by
  rw [Nat.toString_eq_repr, Nat.toList_repr] at member
  exact not_isBlank_of_isDigit (isDigit_of_mem_toDigits member)

theorem toString_ne_nil (n : Nat) : (toString n).toList ≠ [] := by
  rw [Nat.toString_eq_repr, Nat.toList_repr]
  exact Nat.toDigits_ne_nil

end TokenBlame.Numeral
