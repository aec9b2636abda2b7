/-
# TokenBlame.Proofs.Json.RoundTrip -- documents that are written and read again

A document keeps the spelling of its strings and numbers, so it is read as it was written if each
of them is read up to its end (`WellSpelled`, `parse?_compact`).  A string ends with its quotation
mark; behind a number no character may stand that would go on with it (`Ends`), and in a
document a comma or a bracket stands there.

The canonical spellings are read that way, and they stand for what they were made of: escapes for
their characters (`text?_ofString`), digits for their number (`integer?_ofInt`).
-/
import TokenBlame.Json.Parser
import TokenBlame.Json.Printer
import TokenBlame.Proofs.Text.Numeral

set_option autoImplicit false

namespace TokenBlame.Json

/-! ## Strings -/

/-- What is read up to the quotation mark behind it. -/
def StringSpelled (spelling : List Char) : Prop :=
  ∀ found rest, Parser.stringFrom found (spelling ++ '"' :: rest) =
    some (found.reverse ++ spelling, rest)

theorem hexValue?_hexDigit : ∀ n < 16, Numeral.hexValue? (Numeral.hexDigit n) = some n := by
  decide

theorem isHex_hexDigit {n : Nat} (small : n < 16) : Numeral.isHex (Numeral.hexDigit n) = true := by
  rw [Numeral.isHex, hexValue?_hexDigit n small, Option.isSome_some]

/-- Four digits have the value that they were made of. -/
theorem hex4?_hex4 {n : Nat} (small : n < 0x10000) :
    hex4? (Numeral.hexDigit (n / 4096 % 16)) (Numeral.hexDigit (n / 256 % 16))
      (Numeral.hexDigit (n / 16 % 16)) (Numeral.hexDigit (n % 16)) = some n := by
  have digit : ∀ m, Numeral.hexValue? (Numeral.hexDigit (m % 16)) = some (m % 16) :=
    fun m => hexValue?_hexDigit _ (Nat.mod_lt m (by decide))
  simp only [hex4?, digit, bind, Option.bind, pure]
  congr 1
  omega

/-- How a character may be spelled. -/
inductive Escapes (c : Char) : List Char → Prop
  /-- By a letter behind a backslash. -/
  | letter {d : Char} : d ≠ 'u' → unescape? d = some c → Escapes c ['\\', d]
  | codePoint : c.toNat < 0x20 → Escapes c ('\\' :: 'u' :: hex4 c.toNat)
  | plain : c ≠ '"' → c ≠ '\\' → ¬c.toNat < 0x20 → Escapes c [c]

theorem escapes_escape (c : Char) : Escapes c (escape c) := by
  unfold escape
  iterate 7
    split
    · subst c
      exact .letter (by decide) rfl
  split
  · exact .codePoint ‹_›
  · exact .plain ‹_› ‹_› ‹_›

/-- The spelling of a character is one unit of a string. -/
theorem stringFrom_escapes {c : Char} {spelling : List Char} (spelled : Escapes c spelling)
    (found rest : List Char) :
    Parser.stringFrom found (spelling ++ rest) =
      Parser.stringFrom (spelling.reverse ++ found) rest := by
  cases spelled with
  | letter other known =>
      rw [List.cons_append, List.singleton_append, Parser.stringFrom.eq_def]
      simp [other, known]
  | codePoint control =>
      have digit : ∀ m, Numeral.isHex (Numeral.hexDigit (m % 16)) = true :=
        fun m => isHex_hexDigit (Nat.mod_lt m (by decide))
      simp [Parser.stringFrom, hex4, digit]
  | plain quote backslash printable =>
      rw [List.singleton_append, Parser.stringFrom.eq_def]
      simp [backslash, printable]

/-- The spelling of a character stands for it. -/
theorem unescapeFrom_escapes {c : Char} {spelling : List Char} (spelled : Escapes c spelling)
    (found rest : List Char) :
    unescapeFrom found (spelling ++ rest) = unescapeFrom (c :: found) rest := by
  cases spelled with
  | letter other known =>
      rw [List.cons_append, List.singleton_append, unescapeFrom.eq_def]
      simp [other, known]
  | codePoint control =>
      have value := @hex4?_hex4 c.toNat (by omega)
      have low : c.toNat < 0xD800 ∨ 0xDFFF < c.toNat := by omega
      simp [unescapeFrom, hex4, value, low]
  | plain quote backslash printable =>
      rw [List.singleton_append, unescapeFrom.eq_def]
      simp [backslash]

theorem stringSpelled_escape (text : List Char) : StringSpelled (text.flatMap escape) := by
  intro found rest
  induction text generalizing found with
  | nil => simp [Parser.stringFrom]
  | cons c text ih =>
      rw [List.flatMap_cons, List.append_assoc, stringFrom_escapes (escapes_escape c), ih]
      simp

theorem unescapeFrom_flatMap (found text : List Char) :
    unescapeFrom found (text.flatMap escape) = some (found.reverse ++ text) := by
  induction text generalizing found with
  | nil => simp [unescapeFrom]
  | cons c text ih =>
      rw [List.flatMap_cons, unescapeFrom_escapes (escapes_escape c), ih]
      simp

theorem unescapeString?_flatMap (text : String) :
    unescapeString? (text.toList.flatMap escape) = some text := by
  simp [unescapeString?, unescapeFrom_flatMap]

theorem text?_ofString (text : String) : (ofString text).text? = some text :=
  unescapeString?_flatMap text

/-! ## Numbers -/

/-- What may stand behind a number: nothing that goes on with it. -/
def Ends (rest : List Char) : Prop :=
  ∀ c ∈ rest.head?, Parser.isDigit c = false ∧ c ≠ '.' ∧ c ≠ 'e' ∧ c ≠ 'E'

/-- What is read up to a character that does not go on with it. -/
structure NumberSpelled (spelling : List Char) : Prop where
  begins : ∃ c behind, spelling = c :: behind ∧ (c = '-' ∨ Parser.isDigit c = true)
  reads : ∀ rest, Ends rest → Parser.number (spelling ++ rest) = some (spelling, rest)

theorem isDigit_of_mem_toDigits {n : Nat} {c : Char} (member : c ∈ Nat.toDigits 10 n) :
    Parser.isDigit c = true := by
  have digit := Numeral.isDigit_of_mem_toDigits member
  unfold Char.isDigit at digit
  rw [Bool.and_eq_true, decide_eq_true_eq, decide_eq_true_eq] at digit
  rw [Parser.isDigit, Bool.and_eq_true, decide_eq_true_eq, decide_eq_true_eq]
  exact digit

/-- Digits are read up to what is none. -/
theorem digits_append {run rest : List Char} (some : run ≠ [])
    (all : ∀ c ∈ run, Parser.isDigit c = true) (none : ∀ c ∈ rest.head?, Parser.isDigit c = false) :
    Parser.digits (run ++ rest) = .some (run, rest) := by
  have taken : rest.takeWhile Parser.isDigit = [] := by
    cases rest with
    | nil => rfl
    | cons c rest => rw [List.takeWhile_cons, none c rfl]; rfl
  have dropped : rest.dropWhile Parser.isDigit = rest := by
    cases rest with
    | nil => rfl
    | cons c rest => rw [List.dropWhile_cons, none c rfl]; rfl
  unfold Parser.digits
  rw [List.takeWhile_append_of_pos all, List.dropWhile_append_of_pos all, taken, dropped,
    List.append_nil]
  simp [some]

theorem digitChar_ne_zero : ∀ n < 10, 0 < n → n.digitChar ≠ '0' := by
  decide

/-- A number other than zero does not begin with a zero. -/
theorem head?_toDigits {n : Nat} (positive : 0 < n) : (Nat.toDigits 10 n).head? ≠ some '0' := by
  induction n using Nat.strongRecOn with
  | _ n ih =>
      rw [Nat.toDigits_eq_if (by decide)]
      split
      · rename_i small
        rw [List.head?_cons]
        exact fun same => digitChar_ne_zero n small positive (Option.some.inj same)
      · rename_i large
        have first := ih (n / 10) (by omega) (by omega)
        obtain ⟨c, behind, shape⟩ :=
          List.exists_cons_of_ne_nil (Nat.toDigits_ne_nil (n := n / 10) (b := 10))
        rw [shape] at first ⊢
        exact first

/-- The digits before a point are read as they were written. -/
theorem whole_toDigits (n : Nat) {rest : List Char} (ends : Ends rest) :
    Parser.whole (Nat.toDigits 10 n ++ rest) = some (Nat.toDigits 10 n, rest) := by
  rcases Nat.eq_zero_or_pos n with rfl | positive
  · rw [Nat.toDigits_zero, List.singleton_append]
    cases rest with
    | nil => rfl
    | cons c rest => simp [Parser.whole, (ends c rfl).1]
  · have read := digits_append Nat.toDigits_ne_nil (fun c => isDigit_of_mem_toDigits (n := n))
      fun c first => (ends c first).1
    have noZero := head?_toDigits positive
    unfold Parser.whole
    split
    · rename_i rest' shape
      obtain ⟨c, behind, digits⟩ :=
        List.exists_cons_of_ne_nil (Nat.toDigits_ne_nil (n := n) (b := 10))
      rw [digits, List.cons_append] at shape
      rw [digits, (List.cons_eq_cons.1 shape).1] at noZero
      exact absurd rfl noZero
    · exact read

theorem fraction_of_ends {rest : List Char} (ends : Ends rest) :
    Parser.fraction rest = some ([], rest) := by
  unfold Parser.fraction
  split
  · exact absurd rfl (ends '.' rfl).2.1
  · rfl

theorem exponent_of_ends {rest : List Char} (ends : Ends rest) :
    Parser.exponent rest = some ([], rest) := by
  cases rest with
  | nil => rfl
  | cons c rest =>
      obtain ⟨-, -, lower, upper⟩ := ends c rfl
      simp [Parser.exponent, lower, upper]

theorem magnitude_toDigits (n : Nat) {rest : List Char} (ends : Ends rest) :
    Parser.magnitude (Nat.toDigits 10 n ++ rest) = some (Nat.toDigits 10 n, rest) := by
  simp [Parser.magnitude, whole_toDigits n ends, fraction_of_ends ends, exponent_of_ends ends]

theorem numberSpelled_toDigits (n : Nat) : NumberSpelled (Nat.toDigits 10 n) := by
  obtain ⟨c, behind, shape, -, minus⟩ := Numeral.toDigits_eq_cons n
  have digit := isDigit_of_mem_toDigits (shape ▸ List.mem_cons_self : c ∈ Nat.toDigits 10 n)
  refine ⟨⟨c, behind, shape, Or.inr digit⟩, fun rest ends => ?_⟩
  unfold Parser.number
  split
  · rename_i same
    rw [shape, List.cons_append] at same
    exact absurd (List.cons_eq_cons.1 same).1 minus
  · exact magnitude_toDigits n ends

theorem numberSpelled_minus (n : Nat) : NumberSpelled ('-' :: Nat.toDigits 10 n) := by
  refine ⟨⟨'-', _, rfl, Or.inl rfl⟩, fun rest ends => ?_⟩
  rw [List.cons_append, Parser.number, magnitude_toDigits n ends, Option.map_some]

/-- A number is read as it was written. -/
theorem integer?_ofInt (n : Int) : (ofInt n).integer? = some n := by
  obtain ⟨m, rfl | rfl⟩ := Int.eq_nat_or_neg n
  · obtain ⟨c, behind, shape, -, minus⟩ := Numeral.toDigits_eq_cons m
    have read := Numeral.digits?_toDigits m
    rw [ofInt, if_neg (by omega), Int.natAbs_natCast]
    rw [shape] at read ⊢
    simp [integer?, minus, read]
  · rcases Nat.eq_zero_or_pos m with rfl | positive
    · rfl
    · have proper : m ≠ 0 := by omega
      rw [ofInt, if_pos (by omega), Int.natAbs_neg, Int.natAbs_natCast]
      rw [integer?, Numeral.digits?_toDigits, Option.filter_some, if_pos (by simp [proper])]
      rfl

/-! ## Documents -/

/-- A document all of whose strings and numbers are read up to their end. -/
inductive WellSpelled : Json → Prop
  | null : WellSpelled .null
  | bool (value : Bool) : WellSpelled (.bool value)
  | number {spelling : List Char} : NumberSpelled spelling → WellSpelled (.number spelling)
  | string {spelling : List Char} : StringSpelled spelling → WellSpelled (.string spelling)
  | array {items : List Json} : (∀ item ∈ items, WellSpelled item) → WellSpelled (.array items)
  | object {members : List (List Char × Json)} :
      (∀ member ∈ members, StringSpelled member.1) →
      (∀ member ∈ members, WellSpelled member.2) → WellSpelled (.object members)

/-- A document is read as it was written, if the depth allows. -/
def Reads (json : Json) : Prop :=
  ∀ fuel rest, Ends rest → (compactChars json).length ≤ fuel →
    Parser.value fuel (compactChars json ++ rest) = some (json, rest)

/-- White space does not begin with anything else. -/
theorem skip_cons {c : Char} (visible : Parser.isSpace c = false) (rest : List Char) :
    Parser.skip (c :: rest) = c :: rest := by
  rw [Parser.skip, List.dropWhile_cons, visible]
  rfl

theorem isSpace_of_begins {c : Char} (begins : c = '-' ∨ Parser.isDigit c = true) :
    Parser.isSpace c = false := by
  rcases begins with rfl | digit
  · rfl
  · rw [← Bool.not_eq_true]
    intro blank
    simp only [Parser.isSpace, Bool.or_eq_true, beq_iff_eq] at blank
    rcases blank with ((rfl | rfl) | rfl) | rfl
    all_goals exact absurd digit (by decide)

/-- Every document begins with a character that is neither white space nor closes an array. -/
theorem WellSpelled.begins {json : Json} (spelled : WellSpelled json) :
    ∃ c behind, compactChars json = c :: behind ∧ Parser.isSpace c = false ∧ c ≠ ']' := by
  cases spelled with
  | null => exact ⟨_, _, rfl, rfl, by decide⟩
  | bool value => cases value <;> exact ⟨_, _, rfl, rfl, by decide⟩
  | number spelled =>
      obtain ⟨c, behind, rfl, first⟩ := spelled.begins
      refine ⟨c, behind, by rw [compactChars], isSpace_of_begins first, ?_⟩
      rintro rfl
      revert first
      decide
  | string spelled => exact ⟨_, _, rfl, rfl, by decide⟩
  | @array items _ =>
      cases items with
      | nil => exact ⟨_, _, rfl, rfl, by decide⟩
      | cons item items => exact ⟨'[', _, by rw [compactChars]; rfl, rfl, by decide⟩
  | @object members _ _ =>
      cases members with
      | nil => exact ⟨_, _, rfl, rfl, by decide⟩
      | cons member members => exact ⟨'\x7b', _, by rw [compactChars]; rfl, rfl, by decide⟩

theorem ends_cons {c : Char}
    (other : Parser.isDigit c = false ∧ c ≠ '.' ∧ c ≠ 'e' ∧ c ≠ 'E') (rest : List Char) :
    Ends (c :: rest) := by
  intro d first
  cases first
  exact other

theorem ends_compactItems (items : List Json) (rest : List Char) :
    Ends (compactItems items ++ rest) := by
  cases items with
  | nil => exact ends_cons (by decide) _
  | cons item items =>
      rw [compactItems]
      exact ends_cons (by decide) _

theorem ends_compactMembers (members : List (List Char × Json)) (rest : List Char) :
    Ends (compactMembers members ++ rest) := by
  cases members with
  | nil => exact ends_cons (by decide) _
  | cons member members =>
      rw [compactMembers]
      exact ends_cons (by decide) _

/-- Items are read up to the closing bracket. -/
theorem items_compact {item : Json} {items : List Json} (own : Reads item)
    (all : ∀ item ∈ items, Reads item) {fuel : Nat} (found : List Json) (rest : List Char)
    (enough : (compactChars item ++ compactItems items).length ≤ fuel) :
    Parser.items fuel found (compactChars item ++ (compactItems items ++ rest)) =
      some (found.reverse ++ item :: items, rest) := by
  induction items generalizing item found fuel with
  | nil =>
      rw [compactItems, List.length_append, List.length_singleton] at enough
      obtain ⟨depth, rfl⟩ := Nat.exists_eq_add_of_le' (show 1 ≤ fuel by omega)
      rw [Parser.items, own depth _ (ends_compactItems [] rest) (by omega), compactItems,
        List.singleton_append]
      simp only [skip_cons (show Parser.isSpace ']' = false from rfl)]
      rw [List.reverse_cons]
  | cons next items ih =>
      rw [compactItems, List.cons_append, List.length_append, List.length_cons] at enough
      obtain ⟨depth, rfl⟩ := Nat.exists_eq_add_of_le' (show 1 ≤ fuel by omega)
      have later := ih (all next List.mem_cons_self)
        (fun other member => all other (List.mem_cons_of_mem _ member)) (item :: found)
        (show _ ≤ depth by omega)
      rw [Parser.items, own depth _ (ends_compactItems (next :: items) rest) (by omega),
        compactItems, List.cons_append, List.cons_append, List.append_assoc]
      simp only [skip_cons (show Parser.isSpace ',' = false from rfl)]
      rw [later, List.reverse_cons, List.append_assoc, List.singleton_append]

theorem quoted_append (spelling rest : List Char) :
    quoted spelling ++ rest = '"' :: (spelling ++ '"' :: rest) := by
  rw [quoted, List.cons_append, List.cons_append, List.append_assoc, List.singleton_append]

/-- A string is read up to its quotation mark. -/
theorem string_quoted {name : List Char} (spelled : StringSpelled name) (rest : List Char) :
    Parser.string (Parser.skip (quoted name ++ rest)) = some (name, rest) := by
  rw [quoted_append, skip_cons rfl, Parser.string, spelled, List.reverse_nil, List.nil_append]

/-- Members are read up to the closing brace. -/
theorem members_compact {member : List Char × Json} {members : List (List Char × Json)}
    (own : StringSpelled member.1 ∧ Reads member.2)
    (all : ∀ member ∈ members, StringSpelled member.1 ∧ Reads member.2) {fuel : Nat}
    (found : List (List Char × Json)) (rest : List Char)
    (enough : (quoted member.1 ++ ':' :: compactChars member.2 ++ compactMembers members).length ≤
      fuel) :
    Parser.members fuel found
        (quoted member.1 ++ ':' :: (compactChars member.2 ++ (compactMembers members ++ rest))) =
      some (found.reverse ++ member :: members, rest) := by
  induction members generalizing member found fuel with
  | nil =>
      simp only [compactMembers, List.length_append, List.length_cons, List.length_nil] at enough
      obtain ⟨depth, rfl⟩ := Nat.exists_eq_add_of_le' (show 1 ≤ fuel by omega)
      rw [Parser.members, string_quoted own.1]
      simp only [skip_cons (show Parser.isSpace ':' = false from rfl)]
      rw [own.2 depth _ (ends_compactMembers [] rest) (by omega), compactMembers,
        List.singleton_append]
      simp only [skip_cons (show Parser.isSpace '\x7d' = false from rfl)]
      rw [List.reverse_cons]
  | cons next members ih =>
      simp only [compactMembers, List.length_append, List.length_cons] at enough
      obtain ⟨depth, rfl⟩ := Nat.exists_eq_add_of_le' (show 1 ≤ fuel by omega)
      have later := @ih next (all next List.mem_cons_self)
        (fun other inside => all other (List.mem_cons_of_mem _ inside)) depth (member :: found)
        (by simp only [List.length_append, List.length_cons]; omega)
      rw [Parser.members, string_quoted own.1]
      simp only [skip_cons (show Parser.isSpace ':' = false from rfl)]
      rw [own.2 depth _ (ends_compactMembers (next :: members) rest) (by omega), compactMembers]
      simp only [List.cons_append, List.append_assoc,
        skip_cons (show Parser.isSpace ',' = false from rfl)]
      rw [later, List.reverse_cons, List.append_assoc, List.singleton_append]

theorem reads_array {items : List Json}
    (all : ∀ item ∈ items, WellSpelled item ∧ Reads item) : Reads (.array items) := by
  intro fuel rest _ enough
  cases items with
  | nil =>
      obtain ⟨depth, rfl⟩ := Nat.exists_eq_add_of_le' (Nat.le_of_succ_le enough)
      rfl
  | cons item items =>
      obtain ⟨spelled, own⟩ := all item List.mem_cons_self
      obtain ⟨c, behind, first, visible, noEnd⟩ := spelled.begins
      rw [compactChars, List.cons_append, List.length_cons] at enough
      obtain ⟨depth, rfl⟩ := Nat.exists_eq_add_of_le' (show 1 ≤ fuel by omega)
      have read := items_compact own
        (fun other inside => (all other (List.mem_cons_of_mem _ inside)).2) [] rest
        (show _ ≤ depth by omega)
      rw [first, List.cons_append] at read
      rw [compactChars, List.cons_append, List.cons_append, List.append_assoc, first,
        List.cons_append, Parser.value]
      simp only [skip_cons (show Parser.isSpace '[' = false from rfl), skip_cons visible]
      split
      · rename_i same
        exact absurd (List.cons_eq_cons.1 same).1 noEnd
      · rw [read]
        rfl

theorem reads_object {members : List (List Char × Json)}
    (all : ∀ member ∈ members, StringSpelled member.1 ∧ Reads member.2) :
    Reads (.object members) := by
  intro fuel rest _ enough
  cases members with
  | nil =>
      obtain ⟨depth, rfl⟩ := Nat.exists_eq_add_of_le' (Nat.le_of_succ_le enough)
      rfl
  | cons member members =>
      rw [compactChars, List.cons_append, List.cons_append, List.length_cons] at enough
      obtain ⟨depth, rfl⟩ := Nat.exists_eq_add_of_le' (show 1 ≤ fuel by omega)
      have read := members_compact (all member List.mem_cons_self)
        (fun other inside => all other (List.mem_cons_of_mem _ inside)) [] rest
        (show _ ≤ depth by omega)
      rw [quoted_append] at read
      rw [compactChars, Parser.value]
      simp only [List.cons_append, List.append_assoc, quoted_append,
        skip_cons (show Parser.isSpace '\x7b' = false from rfl),
        skip_cons (show Parser.isSpace '"' = false from rfl)]
      exact congrArg (Option.map fun found => (object found.1, found.2)) read

theorem reads_number {spelling : List Char} (spelled : NumberSpelled spelling) :
    Reads (.number spelling) := by
  intro fuel rest ends enough
  obtain ⟨c, behind, rfl, first⟩ := spelled.begins
  have read := spelled.reads rest ends
  rw [compactChars, List.length_cons] at enough
  obtain ⟨depth, rfl⟩ := Nat.exists_eq_add_of_le' (show 1 ≤ fuel by omega)
  rw [List.cons_append] at read
  rw [compactChars, List.cons_append, Parser.value]
  simp only [skip_cons (isSpace_of_begins first)]
  split
  case h_7 =>
    rw [read]
    rfl
  all_goals
    rename_i same
    obtain ⟨rfl, -⟩ := List.cons_eq_cons.1 same
    exact absurd first (by decide)

/-- **A document is read as it was written.** -/
theorem WellSpelled.reads {json : Json} (spelled : WellSpelled json) : Reads json := by
  induction spelled with
  | null =>
      intro fuel rest _ enough
      obtain ⟨depth, rfl⟩ := Nat.exists_eq_add_of_le' (Nat.le_of_succ_le enough)
      rfl
  | bool value =>
      intro fuel rest _ enough
      cases value
      all_goals
        obtain ⟨depth, rfl⟩ := Nat.exists_eq_add_of_le' (Nat.le_of_succ_le enough)
        rfl
  | number spelled => exact reads_number spelled
  | string spelled =>
      intro fuel rest _ enough
      rw [compactChars, quoted, List.cons_append, List.length_cons] at enough
      obtain ⟨depth, rfl⟩ := Nat.exists_eq_add_of_le' (show 1 ≤ fuel by omega)
      rw [compactChars, quoted_append, Parser.value]
      simp only [skip_cons (show Parser.isSpace '"' = false from rfl)]
      exact congrArg (Option.map fun found => (Json.string found.1, found.2)) (spelled [] rest)
  | array spelled ih => exact reads_array fun item member => ⟨spelled item member, ih item member⟩
  | object names _ ih =>
      exact reads_object fun member inside => ⟨names member inside, ih member inside⟩

theorem parse?_compact {json : Json} (spelled : WellSpelled json) :
    parse? (compact json) = some json := by
  have nothing : Ends [] := by
    intro c first
    cases first
  have read := spelled.reads (2 * (compactChars json).length + 2) [] nothing (by omega)
  rw [List.append_nil] at read
  rw [parse?, compact, String.toList_ofList, read]
  rfl

/-! ## Canonical documents -/

theorem wellSpelled_ofString (text : String) : WellSpelled (ofString text) :=
  .string (stringSpelled_escape text.toList)

theorem wellSpelled_ofInt (n : Int) : WellSpelled (ofInt n) := by
  unfold ofInt
  split
  · exact .number (numberSpelled_minus n.natAbs)
  · exact .number (numberSpelled_toDigits n.natAbs)

theorem wellSpelled_ofMembers {members : List (String × Json)}
    (spelled : ∀ member ∈ members, WellSpelled member.2) : WellSpelled (ofMembers members) := by
  refine .object (fun member inside => ?_) fun member inside => ?_
  · obtain ⟨own, -, rfl⟩ := List.mem_map.1 inside
    exact stringSpelled_escape own.1.toList
  · obtain ⟨own, own_mem, rfl⟩ := List.mem_map.1 inside
    exact spelled own own_mem

theorem wellSpelled_texts (texts : List String) : WellSpelled (.array (texts.map ofString)) := by
  refine .array fun item member => ?_
  obtain ⟨text, -, rfl⟩ := List.mem_map.1 member
  exact wellSpelled_ofString text

/-- Elements that are read as they were written give their list. -/
theorem mapM_map_eq_some {α β : Type} {write : α → β} {read : β → Option α}
    (each : ∀ x, read (write x) = some x) (xs : List α) : (xs.map write).mapM read = some xs := by
  induction xs with
  | nil => rfl
  | cons x xs ih =>
      rw [List.map_cons, List.mapM_cons, each, ih]
      rfl

theorem texts?_map (texts : List String) : texts? (.array (texts.map ofString)) = some texts :=
  mapM_map_eq_some text?_ofString texts

theorem members?_ofMembers (members : List (String × Json)) :
    (ofMembers members).members? = some members :=
  mapM_map_eq_some (fun member => by rw [unescapeString?_flatMap, Option.map_some]) members

end TokenBlame.Json
