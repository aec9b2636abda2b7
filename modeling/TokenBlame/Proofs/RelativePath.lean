/-
# TokenBlame.Proofs.RelativePath -- the names of a path, as characters and as bytes

A slash is one byte and no byte of any other character, so a path has the same components
whether its characters or its bytes are cut (`split_encodeChars`).  A path that may stand
in a tree is safe (`isSafe_of_isValid`).
-/
import TokenBlame.Proofs.Git.TreePath
import TokenBlame.RelativePath
import Mathlib.Data.List.Induction

set_option autoImplicit false

namespace TokenBlame.RelativePath

open Git

/-! ## Slashes -/

theorem encodeChar_slash : Utf8.encodeChar '/' = [TreePath.slash] := by decide

/-- No byte of another character is a slash. -/
theorem slash_not_mem {c : Char} (other : c ≠ '/') :
    ∀ b ∈ Utf8.encodeChar c, decide (b = TreePath.slash) = false := by
  intro b member
  rw [decide_eq_false_iff_not]
  rintro rfl
  exact other (Char.toNat_inj.1 (Utf8.toNat_of_mem_encodeChar member (by decide)))

/-- A path has the same components as characters and as bytes. -/
theorem split_encodeChars (path : List Char) :
    TreePath.split (Utf8.encodeChars path) = (components path).map Utf8.encodeChars := by
  induction path with
  | nil => rfl
  | cons c path ih =>
      have chars := Pieces.splitBy_cons (fun x => decide (x = '/')) c path
      obtain ⟨piece, others⟩ := List.cons_eq_cons.1 ih
      show Pieces.splitBy _ (Utf8.encodeChar c ++ Utf8.encodeChars path) =
        (Pieces.splitBy _ (c :: path)).map Utf8.encodeChars
      rw [chars]
      by_cases here : c = '/'
      · subst here
        have cut := Pieces.splitBy_append (p := fun x => decide (x = TreePath.slash))
          (show ∀ x ∈ ([] : List UInt8), _ from by simp) (s := TreePath.slash) (by simp)
          (Utf8.encodeChars path)
        rw [encodeChar_slash]
        exact cut.trans (congrArg (List.cons []) ih)
      · rw [Pieces.splitBy_extend (slash_not_mem here), if_neg (by simpa using here), List.map_cons]
        refine List.cons_eq_cons.2 ⟨?_, others⟩
        exact congrArg (Utf8.encodeChar c ++ ·) piece

theorem ofString_eq (path : String) :
    TreePath.ofString path = (components path.toList).map Utf8.encodeChars :=
  split_encodeChars path.toList

/-! ## Safe paths -/

/-- A path that may stand in a tree is safe. -/
theorem isSafe_of_isValid {path : String} (valid : (TreePath.ofString path).isValid = true) :
    isSafe path = true := by
  rw [ofString_eq] at valid
  have names : ∀ part ∈ components path.toList,
      TreePath.isValidName (Utf8.encodeChars part) = true := fun part member =>
    List.all_eq_true.1 valid _ (List.mem_map_of_mem member)
  have nonempty : ([] : List Char) ∉ components path.toList := fun member =>
    absurd (names [] member) (by decide)
  have down : ['.', '.'] ∉ components path.toList := fun member =>
    absurd (names _ member) (by decide)
  unfold isSafe
  cases chars : path.toList with
  | nil =>
      rw [chars] at nonempty
      exact absurd (by decide) nonempty
  | cons c rest =>
      have first : c ≠ '/' := by
        rintro rfl
        rw [chars] at nonempty
        have cut := Pieces.splitBy_cons (fun x => decide (x = '/')) '/' rest
        exact nonempty (by
          show [] ∈ Pieces.splitBy _ ('/' :: rest)
          rw [cut]
          exact List.mem_cons_self)
      rw [chars] at down
      simp [first, down]

theorem checked_of_isSafe {path : String} (safe : isSafe path = true) :
    checked path = .ok path := by
  unfold checked
  rw [if_pos safe]

theorem isSafe_of_checked {path checkedPath : String} (safe : checked path = .ok checkedPath) :
    isSafe path = true := by
  unfold checked at safe
  split at safe
  · rename_i here
    exact here
  · cases safe

/-- No name of a safe path leads upwards. -/
theorem down_of_isSafe {path : String} (safe : isSafe path = true) :
    ∀ name ∈ TreePath.ofString path, name ≠ Utf8.encode ".." := by
  intro name member
  rw [ofString_eq] at member
  obtain ⟨part, inside, rfl⟩ := List.mem_map.1 member
  intro same
  have read : Utf8.decode (Utf8.encodeChars part) = Utf8.decode (Utf8.encodeChars ['.', '.']) :=
    congrArg Utf8.decode same
  rw [Utf8.decode_encodeChars, Utf8.decode_encodeChars] at read
  have own : part = ['.', '.'] := (List.map_inj_right fun _ _ => Option.some.inj).1 read
  subst own
  simp only [isSafe, Bool.and_eq_true, Bool.not_eq_true', List.contains_eq_mem,
    decide_eq_false_iff_not] at safe
  exact safe.2 inside

/-- The last name that is not empty, with the names in front of it and behind it. -/
theorem exists_last_name {names : List Name} (some : ∃ name ∈ names, name ≠ []) :
    ∃ lead name blanks, names = lead ++ name :: blanks ∧ name ≠ [] ∧
      ∀ blank ∈ blanks, blank = [] := by
  induction names using List.reverseRecOn with
  | nil =>
      obtain ⟨name, member, -⟩ := some
      cases member
  | append_singleton names last ih =>
      by_cases empty : last = []
      · subst empty
        obtain ⟨name, member, nonempty⟩ := some
        have before : name ∈ names := by
          rcases List.mem_append.1 member with before | here
          · exact before
          · exact absurd (List.mem_singleton.1 here) nonempty
        obtain ⟨lead, own, blanks, rfl, own_nonempty, blank⟩ := ih ⟨name, before, nonempty⟩
        refine ⟨lead, own, blanks ++ [[]], by simp, own_nonempty, ?_⟩
        intro other inside
        rcases List.mem_append.1 inside with inside | here
        · exact blank other inside
        · exact List.mem_singleton.1 here
      · exact ⟨names, last, [], rfl, empty, by simp⟩

/-- A safe path has a last name, with nothing but slashes behind it. -/
theorem name_of_isSafe {path : String} (safe : isSafe path = true) :
    ∃ lead name blanks, TreePath.ofString path = lead ++ name :: blanks ∧ name ≠ [] ∧
      ∀ blank ∈ blanks, blank = [] := by
  apply exists_last_name
  rw [ofString_eq]
  unfold isSafe at safe
  cases chars : path.toList with
  | nil =>
      rw [chars] at safe
      cases safe
  | cons c rest =>
      rw [chars] at safe
      have first : c ≠ '/' := by
        rintro rfl
        simp at safe
      have cut := Pieces.splitBy_cons (fun x => decide (x = '/')) c rest
      rw [if_neg (by simpa using first)] at cut
      have named : ∃ part ∈ components (c :: rest), ∃ tail, part = c :: tail := by
        show ∃ part ∈ Pieces.splitBy (fun x => decide (x = '/')) (c :: rest), _
        rw [cut]
        exact ⟨_, List.mem_cons_self, _, rfl⟩
      obtain ⟨part, inside, tail, rfl⟩ := named
      refine ⟨_, List.mem_map_of_mem inside, ?_⟩
      show Utf8.encodeChar c ++ Utf8.encodeChars tail ≠ []
      intro empty
      exact Utf8.encodeChar_ne_nil c (List.append_eq_nil_iff.1 empty).1

end TokenBlame.RelativePath
