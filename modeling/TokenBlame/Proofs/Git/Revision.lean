/-
# TokenBlame.Proofs.Git.Revision -- commits named in full

The name of an object is forty lower-case digits (`isId_ofObject`).  Names of one length
begin with each other only where they are the same, so a commit that is named in full is
the one that is meant (`resolve_full`).
-/
import TokenBlame.Git.Revision
import TokenBlame.Proofs.Git.Store
import TokenBlame.Proofs.Trailer

set_option autoImplicit false

namespace TokenBlame.Git

/-! ## Digits -/

theorem isLowerHex_hexDigit : ∀ n < 16, Numeral.isLowerHex (Numeral.hexDigit n) = true := by
  decide

/-- A digit is one of sixteen characters. -/
theorem ofNat_of_isLowerHex {c : Char} (digit : Numeral.isLowerHex c = true) :
    ∃ n, (n ∈ List.range' 48 10 ∨ n ∈ List.range' 97 6) ∧ c = Char.ofNat n := by
  refine ⟨c.toNat, ?_, (Char.ofNat_toNat c).symm⟩
  unfold Numeral.isLowerHex at digit
  simp only [Bool.or_eq_true, Bool.and_eq_true, decide_eq_true_eq, Char.le_def,
    UInt32.le_iff_toNat_le] at digit
  simp only [List.mem_range'_1]
  exact digit.imp (fun both => ⟨both.1, Nat.lt_succ_of_le both.2⟩)
    (fun both => ⟨both.1, Nat.lt_succ_of_le both.2⟩)

/-- A lower-case digit is a digit, is in lower case, and begins no step of a revision. -/
theorem digit_facts {c : Char} (digit : Numeral.isLowerHex c = true) :
    Numeral.isHex c = true ∧ c.toLower = c ∧ Revision.isMark c = false := by
  have all : ∀ n ∈ List.range' 48 10 ++ List.range' 97 6,
      Numeral.isHex (Char.ofNat n) = true ∧ (Char.ofNat n).toLower = Char.ofNat n ∧
        Revision.isMark (Char.ofNat n) = false := by decide
  obtain ⟨n, range, rfl⟩ := ofNat_of_isLowerHex digit
  exact all n (List.mem_append.2 range)

theorem length_digest (message : Bytes) : (Sha1.digest message).length = 20 := rfl

theorem isId_hexOfBytes {bytes : Bytes} (length : bytes.length = 20) :
    Trailer.IsId (Numeral.hexOfBytes bytes) := by
  have size : ∀ bytes : Bytes, (bytes.flatMap fun b =>
      [Numeral.hexDigit (b.toNat / 16), Numeral.hexDigit (b.toNat % 16)]).length =
        2 * bytes.length := by
    intro bytes
    induction bytes with
    | nil => rfl
    | cons b bytes ih =>
        rw [List.flatMap_cons, List.length_append, ih, List.length_cons]
        show 2 + 2 * bytes.length = 2 * (bytes.length + 1)
        omega
  unfold Trailer.IsId Numeral.hexOfBytes
  rw [String.toList_ofList, size, length]
  refine ⟨rfl, ?_⟩
  rw [List.all_eq_true]
  intro c member
  obtain ⟨b, -, here⟩ := List.mem_flatMap.1 member
  have bound := b.toNat_lt
  rcases List.mem_cons.1 here with rfl | here
  · exact isLowerHex_hexDigit _ (by omega)
  · rw [List.mem_singleton.1 here]
    exact isLowerHex_hexDigit _ (by omega)

/-- The name of an object is forty lower-case digits. -/
theorem isId_ofObject (kind : String) (body : Bytes) :
    Trailer.IsId (ObjectId.ofObject kind body).hex :=
  isId_hexOfBytes (length_digest _)

/-! ## Full names -/

section Full

variable {text : List Char}

theorem cut_of_digits (digits : text.all Numeral.isLowerHex = true) :
    Revision.cut text = (text, []) := by
  induction text with
  | nil => rfl
  | cons c text ih =>
      rw [List.all_cons, Bool.and_eq_true] at digits
      have step : Revision.cut (c :: text) =
          if Revision.isMark c then ([], (c :: (Revision.cut text).1) :: (Revision.cut text).2)
          else (c :: (Revision.cut text).1, (Revision.cut text).2) := rfl
      rw [step, (digit_facts digits.1).2.2, ih digits.2]
      rfl

theorem map_toLower_of_digits (digits : text.all Numeral.isLowerHex = true) :
    text.map Char.toLower = text := by
  rw [List.all_eq_true] at digits
  conv => rhs; rw [← List.map_id text]
  exact List.map_congr_left fun c member => (digit_facts (digits c member)).2.1

theorem all_isHex_of_digits (digits : text.all Numeral.isLowerHex = true) :
    text.all Numeral.isHex = true := by
  rw [List.all_eq_true] at digits ⊢
  exact fun c member => (digit_facts (digits c member)).1

theorem isPrefixOf_of_isId {a b : String} (isIdA : Trailer.IsId a) (isIdB : Trailer.IsId b) :
    a.toList.isPrefixOf b.toList = decide (b = a) := by
  rw [Bool.eq_iff_iff, List.isPrefixOf_iff_prefix, decide_eq_true_eq]
  constructor
  · intro start
    exact (String.toList_inj.1 (start.eq_of_length (isIdA.1.trans isIdB.1.symm))).symm
  · rintro rfl
    exact List.prefix_refl _

theorem hex_inj {a b : ObjectId} : a.hex = b.hex ↔ a = b := by
  cases a
  cases b
  simp

theorem filter_id {commits : List Commit} (distinct : (commits.map (·.id)).Nodup)
    {commit : Commit} (member : commit ∈ commits) :
    commits.filter (fun other => decide (other.id = commit.id)) = [commit] := by
  induction commits with
  | nil => cases member
  | cons first rest ih =>
      obtain ⟨new, distinct⟩ := List.nodup_cons.1 distinct
      have others : ∀ other ∈ rest, other.id ≠ first.id := by
        intro other inside same
        exact new (List.mem_map.2 ⟨other, inside, same⟩)
      rcases List.mem_cons.1 member with rfl | member
      · have none : rest.filter (fun other => decide (other.id = commit.id)) = [] := by
          rw [List.filter_eq_nil_iff]
          intro other inside
          simpa using others other inside
        rw [List.filter_cons, if_pos (by simp), none]
      · rw [List.filter_cons, if_neg (by simpa using (others commit member).symm)]
        exact ih distinct member

/-- **A commit that is named in full** is the one that is meant. -/
theorem resolve_full {repository : Repository}
    (named : ∀ commit ∈ repository.commits, Trailer.IsId commit.id.hex)
    (distinct : (repository.commits.map (·.id)).Nodup) {commit : Commit}
    (member : commit ∈ repository.commits) : repository.resolve commit.id.hex = .ok commit.id := by
  have isId := named commit member
  have begins : repository.commits.filter (fun other =>
      (commit.id.hex.toList.map Char.toLower).isPrefixOf other.id.hex.toList) = [commit] := by
    rw [map_toLower_of_digits isId.2, ← filter_id distinct member]
    apply List.filter_congr
    intro other inside
    rw [isPrefixOf_of_isId isId (named other inside), decide_eq_decide, hex_inj]
  have parsed : Revision.parse? commit.id.hex = some ⟨commit.id.hex.toList, []⟩ := by
    have other : commit.id.hex.toList ≠ ['@'] := by
      intro same
      have length := isId.1
      rw [same] at length
      cases length
    unfold Revision.parse?
    rw [cut_of_digits isId.2]
    simp only [List.mapM_nil, pure, Option.map_some, if_neg other]
  have length : commit.id.hex.toList.length = 40 := isId.1
  have whole : Revision.abbreviated? repository commit.id.hex.toList = some commit.id := by
    have fits : (decide (4 ≤ commit.id.hex.toList.length) &&
        decide (commit.id.hex.toList.length ≤ 40) &&
          commit.id.hex.toList.all Numeral.isHex) = true := by
      rw [length, all_isHex_of_digits isId.2]
      rfl
    unfold Revision.abbreviated?
    dsimp only
    rw [if_pos fits, begins]
    dsimp only
    rw [length]
    rfl
  have found : (repository.find? commit.id).isSome = true :=
    isSome_find?_iff.2 (List.mem_map_of_mem member)
  have base : Revision.base? repository commit.id.hex.toList = some commit.id := by
    unfold Revision.base?
    dsimp only
    rw [if_pos length, whole, Option.some_or, Option.filter_some, if_pos found]
  unfold Repository.resolve Repository.resolve?
  rw [parsed]
  simp only [Option.bind_eq_bind, Option.bind_some, base, List.foldlM_nil]
  rfl

end Full

end TokenBlame.Git
