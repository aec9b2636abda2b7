/-
# TokenBlame.Text.Glob -- patterns with wildcards

A pattern is read as a list of parts.  `?` is any byte, `*` is any run of bytes, slashes
included, and `[…]` is one byte of a set, or one outside of it if the set begins with `!`
or `^`.  A backslash takes the byte after it as it is.  A set that does not end, that
names an unknown class, and a backslash at the end match nothing.

In a set `a-z` is a range and `[:digit:]` a class.  A bracket that closes the set at its
first place is a member.

`accepts` says what a list of parts matches, one part after the other.
-/
import TokenBlame.Text.Utf8

set_option autoImplicit false

namespace TokenBlame.Glob

/-- A range of bytes, both ends included. -/
structure Range where
  low : UInt8
  high : UInt8
  deriving DecidableEq, Repr

/-- The range of one byte. -/
def Range.single (b : UInt8) : Range := ⟨b, b⟩

/-- Whether a byte lies in a range. -/
def Range.contains (range : Range) (b : UInt8) : Bool :=
  range.low ≤ b && b ≤ range.high

/-- The bytes in some ranges, or the bytes outside of them. -/
structure ByteSet where
  ranges : List Range
  isNegated : Bool := false
  deriving DecidableEq, Repr

namespace ByteSet

/-- Whether a byte is in a set. -/
def contains (set : ByteSet) (b : UInt8) : Bool :=
  set.ranges.any (·.contains b) != set.isNegated

/-- The set of one byte. -/
def single (b : UInt8) : ByteSet := ⟨[.single b], false⟩

/-- The set of all bytes. -/
def all : ByteSet := ⟨[], true⟩

/-- The set without bytes. -/
def none : ByteSet := ⟨[], false⟩

theorem contains_single (a b : UInt8) : (single a).contains b = decide (a = b) := by
  simp only [contains, single, Range.contains, Range.single, List.any_cons, List.any_nil,
    Bool.or_false, Bool.bne_false]
  by_cases same : a = b
  · simp [same]
  · have apart : ¬ (a ≤ b ∧ b ≤ a) := fun h => same (UInt8.le_antisymm h.1 h.2)
    simpa [same] using apart

theorem contains_all (b : UInt8) : all.contains b = true := rfl

theorem contains_none (b : UInt8) : none.contains b = false := rfl

end ByteSet

/-- A part of a pattern: one byte of a set, or any run of bytes. -/
inductive Part where
  | oneOf (set : ByteSet)
  | run
  deriving DecidableEq, Repr

/-! ## Matching -/

/-- Whether a test holds for the text or for what is left of it after some bytes. -/
def anyRest (test : Bytes → Bool) : Bytes → Bool
  | [] => test []
  | b :: rest => test (b :: rest) || anyRest test rest

/-- Whether a pattern matches a text. -/
def accepts : List Part → Bytes → Bool
  | [], text => text.isEmpty
  | .run :: parts, text => anyRest (accepts parts) text
  | .oneOf _ :: _, [] => false
  | .oneOf set :: parts, b :: text => set.contains b && accepts parts text

/-- A test holds for some rest if and only if the text is split so that it does. -/
theorem anyRest_iff (test : Bytes → Bool) (text : Bytes) :
    anyRest test text = true ↔ ∃ front rest, text = front ++ rest ∧ test rest = true := by
  induction text with
  | nil =>
      simp only [anyRest]
      exact ⟨fun holds => ⟨[], [], rfl, holds⟩, fun ⟨front, rest, split, holds⟩ => by
        simp only [List.nil_eq_append_iff] at split
        simpa [split.2] using holds⟩
  | cons b text ih =>
      simp only [anyRest, Bool.or_eq_true, ih]
      constructor
      · rintro (here | ⟨front, rest, rfl, holds⟩)
        · exact ⟨[], b :: text, rfl, here⟩
        · exact ⟨b :: front, rest, rfl, holds⟩
      · rintro ⟨front, rest, split, holds⟩
        cases front with
        | nil => exact .inl (by simpa [split] using holds)
        | cons c front =>
            simp only [List.cons_append, List.cons.injEq] at split
            exact .inr ⟨front, rest, split.2, holds⟩

/-! ## Reading -/

/-- The byte `[`. -/
def opening : UInt8 := 0x5B

/-- The byte `]`. -/
def closing : UInt8 := 0x5D

/-- The byte that takes the one after it as it is. -/
def escape : UInt8 := 0x5C

/-- The byte between the ends of a range. -/
def hyphen : UInt8 := 0x2D

/-- The byte at both ends of the name of a class. -/
def colon : UInt8 := 0x3A

/-- The byte that stands for a run. -/
def star : UInt8 := 0x2A

/-- The byte that stands for any byte. -/
def question : UInt8 := 0x3F

/-- Whether a set that begins with a byte is negated. -/
def negates (b : UInt8) : Bool :=
  b == 0x21 || b == 0x5E

/-- Whether a byte begins something other than itself. -/
def isWildcard (b : UInt8) : Bool :=
  b == star || b == question || b == opening

/-- The digits of ASCII. -/
def digits : Range := ⟨0x30, 0x39⟩

/-- The capital letters of ASCII. -/
def capitals : Range := ⟨0x41, 0x5A⟩

/-- The small letters of ASCII. -/
def smalls : Range := ⟨0x61, 0x7A⟩

/-- The classes of bytes, by their names.  They hold bytes of ASCII only. -/
def classes : List (String × List Range) :=
  [("alnum", [digits, capitals, smalls]),
    ("alpha", [capitals, smalls]),
    ("blank", [.single 0x20, .single 0x09]),
    ("cntrl", [⟨0x00, 0x1F⟩, .single 0x7F]),
    ("digit", [digits]),
    ("graph", [⟨0x21, 0x7E⟩]),
    ("lower", [smalls]),
    ("print", [⟨0x20, 0x7E⟩]),
    ("punct", [⟨0x21, 0x2F⟩, ⟨0x3A, 0x40⟩, ⟨0x5B, 0x60⟩, ⟨0x7B, 0x7E⟩]),
    ("space", [.single 0x20, ⟨0x09, 0x0D⟩]),
    ("upper", [capitals]),
    ("xdigit", [digits, ⟨0x41, 0x46⟩, ⟨0x61, 0x66⟩])]

/-- The ranges of a class. -/
def class? (name : Bytes) : Option (List Range) :=
  (classes.find? fun (known, _) => Utf8.encode known == name).map (·.2)

/-- The next byte, which may be escaped, and the rest. -/
def literal? : Bytes → Option (UInt8 × Bytes)
  | [] => none
  | b :: rest => if b = escape then rest.head?.map (·, rest.tail) else some (b, rest)

/-- A member of a set that was read. -/
structure Member where
  ranges : List Range
  /-- Where a range begins that a hyphen after the member makes of it. -/
  start? : Option UInt8
  /-- The text after the member. -/
  rest : Bytes

/-- A member that is one byte. -/
def byteMember? (text : Bytes) : Option Member :=
  (literal? text).map fun (b, rest) => ⟨[.single b], some b, rest⟩

/-- A member that is a range from `low` on. -/
def rangeMember? (low : UInt8) (text : Bytes) : Option Member :=
  (literal? text).map fun (high, rest) => ⟨[⟨low, high⟩], none, rest⟩

/-- A member that is a class; `text` is what follows `[:`.  Where no colon stands in
front of the first bracket it is a bracket. -/
def classMember? (text : Bytes) : Option Member :=
  let name := text.takeWhile (· != closing)
  match text.dropWhile (· != closing) with
  | [] => none
  | _ :: rest =>
      if name.getLast? = some colon then
        (class? name.dropLast).map fun ranges => ⟨ranges, none, rest⟩
      else some ⟨[.single opening], some opening, colon :: text⟩

/-- The first member in a text; a range may begin with `start?`. -/
def member? (start? : Option UInt8) (text : Bytes) : Option Member :=
  match text with
  | a :: b :: rest =>
      if a = opening ∧ b = colon then classMember? rest
      else
        match start? with
        | some low =>
            if a = hyphen ∧ b ≠ closing then rangeMember? low (b :: rest) else byteMember? text
        | none => byteMember? text
  | _ => byteMember? text

theorem length_of_literal? {text rest : Bytes} {b : UInt8} (read : literal? text = some (b, rest)) :
    rest.length < text.length := by
  cases text with
  | nil => simp [literal?] at read
  | cons a text =>
      simp only [literal?] at read
      split at read
      · cases text with
        | nil => simp at read
        | cons c text =>
            simp only [List.head?_cons, List.tail_cons, Option.map_some, Option.some.injEq,
              Prod.mk.injEq] at read
            rw [← read.2, List.length_cons, List.length_cons]
            omega
      · simp only [Option.some.injEq, Prod.mk.injEq] at read
        simp [← read.2]

theorem length_of_byteMember? {text : Bytes} {member : Member}
    (read : byteMember? text = some member) : member.rest.length < text.length := by
  obtain ⟨⟨b, rest⟩, found, rfl⟩ := Option.map_eq_some_iff.1 read
  exact length_of_literal? found

theorem length_of_rangeMember? {low : UInt8} {text : Bytes} {member : Member}
    (read : rangeMember? low text = some member) : member.rest.length < text.length := by
  obtain ⟨⟨b, rest⟩, found, rfl⟩ := Option.map_eq_some_iff.1 read
  exact length_of_literal? found

theorem length_of_classMember? {text : Bytes} {member : Member}
    (read : classMember? text = some member) : member.rest.length < text.length + 2 := by
  have shorter := (List.dropWhile_sublist (· != closing) (l := text)).length_le
  simp only [classMember?] at read
  split at read
  · simp at read
  · next rest after =>
    rw [after, List.length_cons] at shorter
    split at read
    · obtain ⟨ranges, _, rfl⟩ := Option.map_eq_some_iff.1 read
      show rest.length < _
      omega
    · simp only [Option.some.injEq] at read
      simp [← read]

/-- A member takes at least one byte. -/
theorem length_of_member? {start? : Option UInt8} {text : Bytes} {member : Member}
    (read : member? start? text = some member) : member.rest.length < text.length := by
  unfold member? at read
  split at read
  · split at read
    · exact length_of_classMember? read
    · split at read
      · split at read
        · have := length_of_rangeMember? read
          simp only [List.length_cons] at this ⊢
          omega
        · exact length_of_byteMember? read
      · exact length_of_byteMember? read
  · exact length_of_byteMember? read

/-- The members of a set up to the bracket that closes it, and the text after that; the
first one may be that bracket. -/
def members? (start? : Option UInt8) (text : Bytes) : Option (List Range × Bytes) :=
  match found : member? start? text with
  | none => none
  | some member =>
      have := length_of_member? found
      if member.rest.head? = some closing then some (member.ranges, member.rest.tail)
      else
        (members? member.start? member.rest).map fun (ranges, rest) =>
          (member.ranges ++ ranges, rest)
termination_by text.length

theorem length_of_members? {start? : Option UInt8} {text rest : Bytes} {ranges : List Range}
    (read : members? start? text = some (ranges, rest)) : rest.length < text.length := by
  fun_induction members? start? text generalizing ranges rest with
  | case1 => simp at read
  | case2 start? text member _ shorter _ =>
      simp only [Option.some.injEq, Prod.mk.injEq] at read
      rw [← read.2, List.length_tail]
      omega
  | case3 start? text member _ shorter _ ih =>
      obtain ⟨⟨others, last⟩, inner, same⟩ := Option.map_eq_some_iff.1 read
      simp only [Prod.mk.injEq] at same
      have := ih inner
      rw [← same.2]
      omega

/-- The set at the beginning of a text, without its opening bracket. -/
def set? (text : Bytes) : Option (ByteSet × Bytes) :=
  let isNegated := text.head?.any negates
  (members? none (if isNegated then text.tail else text)).map fun (ranges, rest) =>
    (⟨ranges, isNegated⟩, rest)

theorem length_of_set? {text rest : Bytes} {set : ByteSet} (read : set? text = some (set, rest)) :
    rest.length < text.length := by
  obtain ⟨⟨ranges, last⟩, inner, same⟩ := Option.map_eq_some_iff.1 read
  simp only [Prod.mk.injEq] at same
  have := length_of_members? inner
  rw [← same.2]
  split at this
  · rw [List.length_tail] at this
    omega
  · exact this

/-- The parts of a pattern. -/
def parse (text : Bytes) : List Part :=
  match text with
  | [] => []
  | b :: rest =>
      if b = star then .run :: parse rest
      else if b = question then .oneOf .all :: parse rest
      else if b = opening then
        match found : set? rest with
        | some (set, after) =>
            have := length_of_set? found
            .oneOf set :: parse after
        | none => [.oneOf .none]
      else
        match found : literal? (b :: rest) with
        | some (c, after) =>
            have : after.length ≤ rest.length := Nat.le_of_lt_succ (length_of_literal? found)
            .oneOf (.single c) :: parse after
        | none => [.oneOf .none]
termination_by text.length

/-- Whether a pattern matches a text. -/
def isMatch (pattern text : Bytes) : Bool :=
  accepts (parse pattern) text

end TokenBlame.Glob
