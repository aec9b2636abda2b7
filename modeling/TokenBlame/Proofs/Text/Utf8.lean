/-
# TokenBlame.Proofs.Text.Utf8 -- what a reader of bytes makes of them

An ASCII byte ends whatever stands unfinished before it and stands for itself
(`decode_append_ascii`), and no other byte makes an ASCII character
(`mem_decodeLossyChars`).  So words are neither joined nor cut where bytes around them are
malformed.  What was written for a text is read as that text (`decode?_encode`), nothing else is
(`decode?_eq_some_iff`), and text begins with an ASCII character only where its bytes do
(`head_decodeLossyChars`).

An unfinished character is `Sound` when all that it may still become are characters
beyond ASCII; every byte keeps it so.

Written characters can be told apart without reading from the start: no byte inside of one
begins another.  So a text is found among bytes only where it stands between whole characters
(`splitAtFirst_encodeChars`).
-/
import TokenBlame.Proofs.Text.Pieces
import TokenBlame.Text.Utf8
set_option autoImplicit false
namespace TokenBlame.Utf8

/-- The code points from `low` up to `high` are characters, and none is one of ASCII. -/
def Wide (low high : Nat) : Prop :=
  0x80 ≤ low ∧ (high < 0xD800 ∨ 0xE000 ≤ low ∧ high < 0x110000)

/-- What an unfinished character may still become is a range of characters beyond ASCII. -/
structure Pending.Sound (p : Pending) : Prop where
  low : 0x80 ≤ p.low
  high : p.high ≤ 0xBF
  wide :
    p.owed = 1 ∧ Wide (p.value * 0x40 + (p.low - 0x80)) (p.value * 0x40 + (p.high - 0x80)) ∨
    p.owed = 2 ∧ Wide ((p.value * 0x40 + (p.low - 0x80)) * 0x40)
      ((p.value * 0x40 + (p.high - 0x80)) * 0x40 + 0x3F) ∨
    p.owed = 3 ∧ Wide ((p.value * 0x40 + (p.low - 0x80)) * 0x1000)
      ((p.value * 0x40 + (p.high - 0x80)) * 0x1000 + 0xFFF)

theorem readFirst_sound {b : Nat} {p : Pending} (pending : (readFirst b).2 = some p) : p.Sound := by
  unfold readFirst at pending
  repeat' split at pending
  all_goals cases pending
  all_goals constructor <;> simp [Wide] <;> omega

theorem readNext_sound {p q : Pending} {b : Nat} (sound : p.Sound)
    (pending : (readNext p b).2 = some q) : q.Sound := by
  obtain ⟨low, high, wide⟩ := sound
  unfold readNext at pending
  split at pending
  · split at pending
    · cases pending
    · cases pending
      constructor
      · exact Nat.le_refl _
      · exact Nat.le_refl _
      · simp only [Wide] at wide ⊢
        omega
  · exact readFirst_sound pending

theorem readFirst_of_ascii {b : Nat} (ascii : b < 0x80) :
    readFirst b = ([some (Char.ofNat b)], none) := by
  simp [readFirst, ascii]

theorem mem_readFirst {b : Nat} {c : Char} (found : some c ∈ (readFirst b).1) :
    b < 0x80 ∧ c = Char.ofNat b := by
  unfold readFirst at found
  repeat' split at found
  all_goals simp_all

theorem toNat_ofNat {n : Nat} (valid : n.isValidChar) : (Char.ofNat n).toNat = n := by
  unfold Char.ofNat
  rw [dif_pos valid]
  exact UInt32.toNat_ofNatLT ..

/-- A character that a byte completes after others is not one of ASCII. -/
theorem mem_readNext {p : Pending} {b : Nat} {c : Char} (sound : p.Sound)
    (found : some c ∈ (readNext p b).1) : 0x80 ≤ c.toNat ∨ b < 0x80 ∧ c = Char.ofNat b := by
  obtain ⟨low, high, wide⟩ := sound
  unfold readNext at found
  split at found
  · rename_i inside
    left
    split at found
    · rename_i done
      have same : c = Char.ofNat (p.value * 0x40 + (b - 0x80)) := by simpa using found
      simp only [Wide] at wide
      rw [same, toNat_ofNat (by simp only [Nat.isValidChar]; omega)]
      omega
    · cases found
  · right
    simp only [List.mem_cons, reduceCtorEq, false_or] at found
    exact mem_readFirst found

/-! ## ASCII bytes stand for themselves -/

theorem decodeFrom_found (found : List (Option Char)) (state : Option Pending) (bytes : Bytes) :
    decodeFrom found state bytes = found.reverse ++ decodeFrom [] state bytes := by
  induction bytes generalizing found state with
  | nil => cases state <;> simp [decodeFrom]
  | cons b rest ih =>
      rw [decodeFrom, decodeFrom, ih, ih ((read state b.toNat).1.reverse ++ [])]
      simp

theorem decodeFrom_cons (state : Option Pending) (b : UInt8) (rest : Bytes) :
    decodeFrom [] state (b :: rest) =
      (read state b.toNat).1 ++ decodeFrom [] (read state b.toNat).2 rest := by
  rw [decodeFrom, decodeFrom_found]
  simp

theorem read_of_ascii {state : Option Pending} (sound : ∀ p ∈ state, p.Sound) {b : Nat}
    (ascii : b < 0x80) :
    read state b = ((decodeFrom [] state []) ++ [some (Char.ofNat b)], none) := by
  cases state with
  | none => simp [read, decodeFrom, readFirst_of_ascii ascii]
  | some p =>
      have low := (sound p rfl).low
      have outside : ¬(p.low ≤ b ∧ b ≤ p.high) := by omega
      simp [read, readNext, outside, decodeFrom, readFirst_of_ascii ascii]

theorem read_sound {state : Option Pending} (sound : ∀ p ∈ state, p.Sound) (b : Nat) :
    ∀ p ∈ (read state b).2, p.Sound := by
  intro q next
  cases state with
  | none => exact readFirst_sound next
  | some p => exact readNext_sound (sound p rfl) next

theorem decodeFrom_append_ascii {state : Option Pending} (sound : ∀ p ∈ state, p.Sound)
    (bytes : Bytes) {b : UInt8} (ascii : b.toNat < 0x80) (rest : Bytes) :
    decodeFrom [] state (bytes ++ b :: rest) =
      decodeFrom [] state bytes ++ some (Char.ofNat b.toNat) :: decode rest := by
  induction bytes generalizing state with
  | nil =>
      rw [List.nil_append, decodeFrom_cons, read_of_ascii sound ascii]
      simp [decode]
  | cons head bytes ih =>
      rw [List.cons_append, decodeFrom_cons, decodeFrom_cons, ih (read_sound sound _),
        List.append_assoc]

/-- An ASCII byte ends what is before it and stands for itself. -/
theorem decode_append_ascii (bytes : Bytes) {b : UInt8} (ascii : b.toNat < 0x80) (rest : Bytes) :
    decode (bytes ++ b :: rest) = decode bytes ++ some (Char.ofNat b.toNat) :: decode rest :=
  decodeFrom_append_ascii (by simp) bytes ascii rest

theorem mem_decodeFrom {state : Option Pending} (sound : ∀ p ∈ state, p.Sound) {bytes : Bytes}
    {c : Char} (found : some c ∈ decodeFrom [] state bytes) :
    0x80 ≤ c.toNat ∨ ∃ b ∈ bytes, b.toNat < 0x80 ∧ c = Char.ofNat b.toNat := by
  induction bytes generalizing state with
  | nil => cases state <;> simp [decodeFrom] at found
  | cons b bytes ih =>
      rw [decodeFrom_cons, List.mem_append] at found
      rcases found with here | later
      · have first : 0x80 ≤ c.toNat ∨ b.toNat < 0x80 ∧ c = Char.ofNat b.toNat := by
          cases state with
          | none => exact Or.inr (mem_readFirst here)
          | some p => exact mem_readNext (sound p rfl) here
        exact first.imp_right fun own => ⟨b, List.mem_cons_self, own⟩
      · refine (ih (read_sound sound _) later).imp_right ?_
        rintro ⟨b', member, own⟩
        exact ⟨b', List.mem_cons_of_mem _ member, own⟩

@[simp] theorem decodeLossyChars_nil : decodeLossyChars [] = [] := rfl

theorem decodeLossyChars_append_ascii (bytes : Bytes) {b : UInt8} (ascii : b.toNat < 0x80)
    (rest : Bytes) :
    decodeLossyChars (bytes ++ b :: rest) =
      decodeLossyChars bytes ++ Char.ofNat b.toNat :: decodeLossyChars rest := by
  simp [decodeLossyChars, decode_append_ascii bytes ascii]

/-- The ASCII characters of a text are its ASCII bytes. -/
theorem mem_decodeLossyChars {bytes : Bytes} {c : Char} (member : c ∈ decodeLossyChars bytes) :
    0x80 ≤ c.toNat ∨ ∃ b ∈ bytes, b.toNat < 0x80 ∧ c = Char.ofNat b.toNat := by
  obtain ⟨found, inside, same⟩ := List.mem_map.1 member
  cases found with
  | none =>
      left
      rw [← same]
      decide
  | some c' =>
      rw [Option.getD_some] at same
      subst same
      exact mem_decodeFrom (by simp) inside

/-- A newline is read where there is one, and nowhere else. -/
theorem newline_mem {bytes : Bytes} (member : '\n' ∈ decodeLossyChars bytes) : 0x0A ∈ bytes := by
  rcases mem_decodeLossyChars member with wide | ⟨b, inside, ascii, same⟩
  · exact absurd wide (by decide)
  · have value : (0x0A : UInt8) = b :=
      UInt8.toNat_inj.1 ((congrArg Char.toNat same).trans (toNat_ofNat (by omega)))
    exact value ▸ inside

/-- Bytes of ASCII are read one by one. -/
theorem decodeLossyChars_ascii {bytes : Bytes} (ascii : ∀ b ∈ bytes, b.toNat < 0x80)
    (rest : Bytes) :
    decodeLossyChars (bytes ++ rest) =
      bytes.map (fun b => Char.ofNat b.toNat) ++ decodeLossyChars rest := by
  induction bytes with
  | nil => rfl
  | cons b bytes ih =>
      have head : b.toNat < 0x80 := ascii b List.mem_cons_self
      have tail := ih fun b' member => ascii b' (List.mem_cons_of_mem _ member)
      have step := decodeLossyChars_append_ascii [] head (bytes ++ rest)
      simpa [tail] using step

/-! ## Reading what was written -/

theorem toNat_ofNat_byte {n : Nat} (fits : n < 0x100) : (UInt8.ofNat n).toNat = n := by
  simpa using Nat.mod_eq_of_lt fits

/-- A byte in the range that an unfinished character asks for. -/
theorem readNext_of_inside {p : Pending} {b : Nat} (low : p.low ≤ b) (high : b ≤ p.high) :
    readNext p b =
      if p.owed ≤ 1 then ([some (Char.ofNat (p.value * 0x40 + (b - 0x80)))], none)
      else ([], some ⟨p.owed - 1, 0x80, 0xBF, p.value * 0x40 + (b - 0x80)⟩) := by
  simp [readNext, low, high]

/-- A byte that an unfinished character asks for completes it or leaves one byte less to be
asked for. -/
theorem decodeFrom_inside {owed low high value : Nat} {b : UInt8} (above : low ≤ b.toNat)
    (below : b.toNat ≤ high) (rest : Bytes) :
    decodeFrom [] (some ⟨owed, low, high, value⟩) (b :: rest) =
      if owed ≤ 1 then
        some (Char.ofNat (value * 0x40 + (b.toNat - 0x80))) :: decodeFrom [] none rest
      else decodeFrom [] (some ⟨owed - 1, 0x80, 0xBF, value * 0x40 + (b.toNat - 0x80)⟩) rest := by
  rw [decodeFrom_cons, read, readNext_of_inside above below]
  split <;> rfl

theorem decodeFrom_inner {owed low high value k : Nat} (within : k < 0x40) (above : low ≤ 0x80 + k)
    (below : 0x80 + k ≤ high) (rest : Bytes) :
    decodeFrom [] (some ⟨owed, low, high, value⟩) (UInt8.ofNat (0x80 + k) :: rest) =
      if owed ≤ 1 then some (Char.ofNat (value * 0x40 + k)) :: decodeFrom [] none rest
      else decodeFrom [] (some ⟨owed - 1, 0x80, 0xBF, value * 0x40 + k⟩) rest := by
  have byte : (UInt8.ofNat (0x80 + k)).toNat = 0x80 + k := toNat_ofNat_byte (by omega)
  rw [decodeFrom_inside (by rw [byte]; exact above) (by rw [byte]; exact below), byte,
    Nat.add_sub_cancel_left]

/-- The first byte of a longer character is read. -/
theorem decodeFrom_first {n : Nat} {p : Pending} (fits : n < 0x100)
    (begun : readFirst n = ([], some p)) (rest : Bytes) :
    decodeFrom [] none (UInt8.ofNat n :: rest) = decodeFrom [] (some p) rest := by
  rw [decodeFrom_cons, toNat_ofNat_byte fits, read, begun, List.nil_append]

theorem readFirst_of_two {n : Nat} (low : 0x80 ≤ n) (high : n < 0x800) :
    readFirst (0xC0 + n / 0x40) = ([], some ⟨1, 0x80, 0xBF, n / 0x40⟩) := by
  unfold readFirst
  rw [if_neg (by omega), if_pos (by omega), Nat.add_sub_cancel_left]

/-- The first of three bytes says which bytes may come second. -/
theorem readFirst_of_three {n : Nat} (low : 0x800 ≤ n) (high : n < 0x10000)
    (valid : n < 0xD800 ∨ 0xE000 ≤ n) :
    ∃ l h, readFirst (0xE0 + n / 0x1000) = ([], some ⟨2, l, h, n / 0x1000⟩) ∧
      l ≤ 0x80 + n / 0x40 % 0x40 ∧ 0x80 + n / 0x40 % 0x40 ≤ h := by
  unfold readFirst
  rw [if_neg (by omega), if_neg (by omega)]
  split
  · have value : n / 0x1000 = 0 := by omega
    rw [value]
    exact ⟨_, _, rfl, by omega, by omega⟩
  split
  · have value : n / 0x1000 = 0xD := by omega
    rw [value]
    exact ⟨_, _, rfl, by omega, by omega⟩
  · rw [if_pos (by omega), Nat.add_sub_cancel_left]
    exact ⟨_, _, rfl, by omega, by omega⟩

/-- The first of four bytes says which bytes may come second. -/
theorem readFirst_of_four {n : Nat} (low : 0x10000 ≤ n) (high : n < 0x110000) :
    ∃ l h, readFirst (0xF0 + n / 0x40000) = ([], some ⟨3, l, h, n / 0x40000⟩) ∧
      l ≤ 0x80 + n / 0x1000 % 0x40 ∧ 0x80 + n / 0x1000 % 0x40 ≤ h := by
  unfold readFirst
  rw [if_neg (by omega), if_neg (by omega), if_neg (by omega), if_neg (by omega),
    if_neg (by omega)]
  split
  · have value : n / 0x40000 = 0 := by omega
    rw [value]
    exact ⟨_, _, rfl, by omega, by omega⟩
  split
  · rw [Nat.add_sub_cancel_left]
    exact ⟨_, _, rfl, by omega, by omega⟩
  · have value : n / 0x40000 = 4 := by omega
    rw [if_pos (by omega), value]
    exact ⟨_, _, rfl, by omega, by omega⟩

/-- A written character is read again. -/
theorem decodeFrom_encodeChar (c : Char) (rest : Bytes) :
    decodeFrom [] none (encodeChar c ++ rest) = some c :: decodeFrom [] none rest := by
  have whole : Char.ofNat c.toNat = c := Char.ofNat_toNat c
  have bounds : c.toNat < 0xD800 ∨ 0xE000 ≤ c.toNat ∧ c.toNat < 0x110000 := by
    have valid := c.valid
    simp only [UInt32.isValidChar, Nat.isValidChar] at valid
    have : c.toNat = c.val.toNat := rfl
    omega
  unfold encodeChar
  generalize c.toNat = n at *
  dsimp only
  split
  · rename_i one
    rw [List.cons_append, List.nil_append, decodeFrom_cons, toNat_ofNat_byte (by omega), read,
      readFirst_of_ascii one]
    simp [whole]
  split
  · rename_i two
    have value : n / 0x40 * 0x40 + n % 0x40 = n := by omega
    rw [List.cons_append, List.cons_append, List.nil_append,
      decodeFrom_first (by omega) (readFirst_of_two (by omega) two),
      decodeFrom_inner (by omega) (by omega) (by omega), if_pos (Nat.le_refl 1), value, whole]
  split
  · rename_i three
    obtain ⟨l, h, first, above, below⟩ :=
      readFirst_of_three (by omega) three (by omega : n < 0xD800 ∨ 0xE000 ≤ n)
    have value : (n / 0x1000 * 0x40 + n / 0x40 % 0x40) * 0x40 + n % 0x40 = n := by omega
    rw [List.cons_append, List.cons_append, List.cons_append, List.nil_append,
      decodeFrom_first (by omega) first, decodeFrom_inner (by omega) above below,
      if_neg (by decide), decodeFrom_inner (by omega) (by omega) (by omega),
      if_pos (Nat.le_refl 1), value, whole]
  · obtain ⟨l, h, first, above, below⟩ := readFirst_of_four (n := n) (by omega) (by omega)
    have value : ((n / 0x40000 * 0x40 + n / 0x1000 % 0x40) * 0x40 + n / 0x40 % 0x40) * 0x40 +
        n % 0x40 = n := by omega
    rw [List.cons_append, List.cons_append, List.cons_append, List.cons_append, List.nil_append,
      decodeFrom_first (by omega) first, decodeFrom_inner (by omega) above below,
      if_neg (by decide), decodeFrom_inner (by omega) (by omega) (by omega), if_neg (by decide),
      decodeFrom_inner (by omega) (by omega) (by omega), if_pos (Nat.le_refl 1), value, whole]

/-! ## Bytes of written characters -/

theorem toNat_lt (c : Char) : c.toNat < 0x110000 := by
  have valid := c.valid
  simp only [UInt32.isValidChar, Nat.isValidChar] at valid
  have : c.toNat = c.val.toNat := rfl
  omega

/-- A byte of ASCII is written for its own character only. -/
theorem toNat_of_mem_encodeChar {c : Char} {b : UInt8} (member : b ∈ encodeChar c)
    (ascii : b.toNat < 0x80) : c.toNat = b.toNat := by
  have bound := toNat_lt c
  have wide : ∀ n : Nat, 0x80 ≤ n → n < 0x100 → b = UInt8.ofNat n → c.toNat = b.toNat := by
    rintro n low high rfl
    rw [toNat_ofNat_byte high] at ascii
    omega
  unfold encodeChar at member
  dsimp only at member
  split at member
  · rename_i one
    rw [List.mem_singleton.1 member, toNat_ofNat_byte (by omega)]
  split at member
  · simp only [List.mem_cons, List.not_mem_nil, or_false] at member
    rcases member with h | h <;> exact wide _ (by omega) (by omega) h
  split at member
  · simp only [List.mem_cons, List.not_mem_nil, or_false] at member
    rcases member with h | h | h <;> exact wide _ (by omega) (by omega) h
  · simp only [List.mem_cons, List.not_mem_nil, or_false] at member
    rcases member with h | h | h | h <;> exact wide _ (by omega) (by omega) h

theorem encodeChar_ne_nil (c : Char) : encodeChar c ≠ [] := by
  unfold encodeChar
  dsimp only
  split
  · simp
  split
  · simp
  split <;> simp

theorem decode_encodeChars (text : List Char) : decode (encodeChars text) = text.map some := by
  induction text with
  | nil => rfl
  | cons c text ih =>
      unfold encodeChars decode at *
      rw [List.flatMap_cons, decodeFrom_encodeChar, ih, List.map_cons]

/-- Bytes behind a text are read behind it. -/
theorem decodeLossyChars_encodeChars (text : List Char) (rest : Bytes) :
    decodeLossyChars (encodeChars text ++ rest) = text ++ decodeLossyChars rest := by
  induction text with
  | nil => rfl
  | cons c text ih =>
      unfold decodeLossyChars decode encodeChars at ih ⊢
      rw [List.flatMap_cons, List.append_assoc, decodeFrom_encodeChar, List.map_cons, ih]
      rfl

/-- A text is read from the bytes that were written for it, none of which is malformed. -/
theorem decode?_encode (text : String) : decode? (encode text) = some text := by
  simp [decode?, encode, decode_encodeChars, List.filterMap_map]

/-- What was read of ASCII is written as it was. -/
theorem encodeChars_decodeLossyChars {bytes : Bytes} (ascii : ∀ b ∈ bytes, b.toNat < 0x80) :
    encodeChars (decodeLossyChars bytes) = bytes := by
  induction bytes with
  | nil => rfl
  | cons b bytes ih =>
      have first : b.toNat < 0x80 := ascii b List.mem_cons_self
      have own : encodeChar (Char.ofNat b.toNat) = [b] := by
        unfold encodeChar
        rw [toNat_ofNat (by omega), if_pos first, UInt8.ofNat_toNat]
      have step : decodeLossyChars (b :: bytes) =
          Char.ofNat b.toNat :: decodeLossyChars bytes := decodeLossyChars_append_ascii [] first bytes
      rw [step, encodeChars, List.flatMap_cons, own]
      exact congrArg (List.cons b) (ih fun b' member => ascii b' (List.mem_cons_of_mem _ member))

/-! ## The first character -/

theorem wide_replacement : 0x80 ≤ replacement.toNat := by decide

/-- A first byte shows one thing, or begins a character and shows nothing yet. -/
theorem readFirst_cases (b : Nat) :
    (∃ found, readFirst b = ([found], none)) ∨ ∃ p, readFirst b = ([], some p) := by
  unfold readFirst
  repeat' split
  all_goals first | exact Or.inl ⟨_, rfl⟩ | exact Or.inr ⟨_, rfl⟩

/-- What an unfinished character becomes first is malformed, or a character beyond ASCII. -/
theorem decodeFrom_pending {p : Pending} (sound : p.Sound) (bytes : Bytes) :
    ∃ first rest, decodeFrom [] (some p) bytes = first :: rest ∧
      0x80 ≤ (first.getD replacement).toNat := by
  induction bytes generalizing p with
  | nil => exact ⟨none, [], rfl, wide_replacement⟩
  | cons b bytes ih =>
      rw [decodeFrom_cons, read]
      by_cases inside : p.low ≤ b.toNat ∧ b.toNat ≤ p.high
      · by_cases last : p.owed ≤ 1
        · have next := readNext_of_inside inside.1 inside.2
          rw [if_pos last] at next
          have wide : 0x80 ≤ (Char.ofNat (p.value * 0x40 + (b.toNat - 0x80))).toNat := by
            have member := mem_readNext (c := Char.ofNat (p.value * 0x40 + (b.toNat - 0x80))) sound
              (by rw [next]; exact List.mem_singleton_self _)
            exact member.resolve_right fun ascii => by have := sound.low; omega
          rw [next, List.singleton_append]
          exact ⟨_, _, rfl, by rw [Option.getD_some]; exact wide⟩
        · have next := readNext_of_inside inside.1 inside.2
          rw [if_neg last] at next
          have later := readNext_sound sound (congrArg Prod.snd next)
          rw [next]
          exact ih later
      · have cut : (readNext p b.toNat).1 = none :: (readFirst b.toNat).1 := by
          rw [readNext, if_neg inside]
        rw [cut]
        exact ⟨none, _, rfl, wide_replacement⟩

/-- Bytes begin with an ASCII character only where their first byte is that character. -/
theorem head_decodeLossyChars (b : UInt8) (bytes : Bytes) :
    ∃ first rest, decodeLossyChars (b :: bytes) = first :: rest ∧
      (0x80 ≤ first.toNat ∨ first = Char.ofNat b.toNat) := by
  have shown : ∀ found rest, decode (b :: bytes) = found :: rest →
      decodeLossyChars (b :: bytes) = found.getD replacement :: rest.map (·.getD replacement) := by
    intro found rest same
    rw [decodeLossyChars, same, List.map_cons]
  have one : decode (b :: bytes) =
      (readFirst b.toNat).1 ++ decodeFrom [] (readFirst b.toNat).2 bytes :=
    decodeFrom_cons none b bytes
  rcases readFirst_cases b.toNat with ⟨first, read⟩ | ⟨p, read⟩
  · rw [read] at one
    refine ⟨_, _, shown _ _ one, ?_⟩
    cases first with
    | none => exact Or.inl wide_replacement
    | some c => exact Or.inr (mem_readFirst (by rw [read]; exact List.mem_cons_self)).2
  · obtain ⟨first, rest, same, wide⟩ := decodeFrom_pending (readFirst_sound (by rw [read])) bytes
    rw [read, List.nil_append, same] at one
    exact ⟨_, _, shown _ _ one, Or.inl wide⟩

theorem decodeLossyChars_eq_nil_iff {bytes : Bytes} : decodeLossyChars bytes = [] ↔ bytes = [] := by
  cases bytes with
  | nil => simp
  | cons b bytes =>
      obtain ⟨first, rest, shape, -⟩ := head_decodeLossyChars b bytes
      simp [shape]

/-! ## Bytes between characters -/

/-- A byte behind the first one of a character. -/
def isContinuation (b : UInt8) : Bool :=
  decide (0x80 ≤ b.toNat) && decide (b.toNat < 0xC0)

/-- A character is written as one byte that may begin a character and others that may not. -/
theorem encodeChar_shape (c : Char) :
    ∃ first others, encodeChar c = first :: others ∧ isContinuation first = false ∧
      ∀ b ∈ others, isContinuation b = true := by
  have bound := toNat_lt c
  have leads : ∀ n : Nat, n < 0x100 → n < 0x80 ∨ 0xC0 ≤ n →
      isContinuation (UInt8.ofNat n) = false := by
    intro n fits outside
    simp only [isContinuation, toNat_ofNat_byte fits, Bool.and_eq_false_iff, decide_eq_false_iff_not]
    omega
  have follows : ∀ n : Nat, isContinuation (UInt8.ofNat (0x80 + n % 0x40)) = true := by
    intro n
    simp only [isContinuation, toNat_ofNat_byte (n := 0x80 + n % 0x40) (by omega),
      Bool.and_eq_true, decide_eq_true_eq]
    omega
  unfold encodeChar
  dsimp only
  split
  · exact ⟨_, [], rfl, leads _ (by omega) (by omega), by simp⟩
  split
  · exact ⟨_, _, rfl, leads _ (by omega) (by omega), List.forall_mem_singleton.2 (follows _)⟩
  split
  · exact ⟨_, _, rfl, leads _ (by omega) (by omega),
      List.forall_mem_cons.2 ⟨follows _, List.forall_mem_singleton.2 (follows _)⟩⟩
  · exact ⟨_, _, rfl, leads _ (by omega) (by omega), List.forall_mem_cons.2 ⟨follows _,
      List.forall_mem_cons.2 ⟨follows _, List.forall_mem_singleton.2 (follows _)⟩⟩⟩

@[simp] theorem encodeChars_cons (c : Char) (text : List Char) :
    encodeChars (c :: text) = encodeChar c ++ encodeChars text := rfl

@[simp] theorem encodeChars_append (front back : List Char) :
    encodeChars (front ++ back) = encodeChars front ++ encodeChars back :=
  List.flatMap_append

theorem encodeChars_eq_nil {text : List Char} : encodeChars text = [] ↔ text = [] := by
  constructor
  · intro none
    cases text with
    | nil => rfl
    | cons c text => exact absurd (List.append_eq_nil_iff.1 none).1 (encodeChar_ne_nil c)
  · rintro rfl
    rfl

/-- No character's bytes begin another's. -/
theorem encodeChar_append_inj {c d : Char} {front back : Bytes}
    (same : encodeChar c ++ front = encodeChar d ++ back) : c = d ∧ front = back := by
  have read := congrArg (decodeFrom [] none) same
  rw [decodeFrom_encodeChar, decodeFrom_encodeChar] at read
  obtain rfl : c = d := Option.some.inj (List.cons_eq_cons.1 read).1
  exact ⟨rfl, List.append_cancel_left same⟩

/-- Bytes that are written for a text begin those of another only if the text begins it. -/
theorem encodeChars_prefix_iff {pattern text : List Char} :
    encodeChars pattern <+: encodeChars text ↔ pattern <+: text := by
  constructor
  · rintro ⟨rest, whole⟩
    induction pattern generalizing text with
    | nil => exact List.nil_prefix
    | cons c pattern ih =>
        cases text with
        | nil =>
            have none := (List.append_eq_nil_iff.1 whole).1
            exact absurd (encodeChars_eq_nil.1 none) (List.cons_ne_nil _ _)
        | cons d text =>
            rw [encodeChars_cons, encodeChars_cons, List.append_assoc] at whole
            obtain ⟨rfl, later⟩ := encodeChar_append_inj whole
            exact List.cons_prefix_cons.2 ⟨rfl, ih later⟩
  · rintro ⟨rest, rfl⟩
    exact ⟨encodeChars rest, (encodeChars_append pattern rest).symm⟩

/-- **A search in bytes finds what a search in characters finds**: an occurrence of what was
written for a text begins and ends between characters. -/
theorem splitAtFirst_encodeChars (pattern text : List Char) :
    Pieces.splitAtFirst (encodeChars pattern) (encodeChars text) =
      (Pieces.splitAtFirst pattern text).map fun found =>
        (encodeChars found.1, encodeChars found.2) := by
  by_cases empty : pattern = []
  · subst empty
    have bytes := Pieces.splitAtFirst_here [] (encodeChars text)
    have chars := Pieces.splitAtFirst_here [] text
    rw [List.nil_append] at bytes chars
    rw [chars]
    exact bytes
  have nonempty : encodeChars pattern ≠ [] := fun none => empty (encodeChars_eq_nil.1 none)
  induction text with
  | nil =>
      have none := Pieces.splitAtFirst_nil (encodeChars pattern)
      rw [if_neg (by simpa using nonempty)] at none
      rw [Pieces.splitAtFirst_nil, if_neg (by simpa using empty)]
      exact none
  | cons d text ih =>
      rw [Pieces.splitAtFirst_cons]
      split
      · rename_i here
        obtain ⟨rest, whole⟩ := List.isPrefixOf_iff_prefix.1 here
        rw [← whole, encodeChars_append, Pieces.splitAtFirst_here, List.drop_left]
        rfl
      · rename_i elsewhere
        obtain ⟨first, others, bytes, -, follow⟩ := encodeChar_shape d
        have apart : ∀ b ∈ others, (encodeChars pattern).head? ≠ some b := by
          intro b member first'
          obtain ⟨c, pattern', rfl⟩ := List.exists_cons_of_ne_nil empty
          obtain ⟨lead, _, shape, begins, -⟩ := encodeChar_shape c
          rw [encodeChars_cons, shape] at first'
          obtain rfl : lead = b := by simpa using first'
          rw [follow _ member] at begins
          cases begins
        have notHere : ¬(encodeChars pattern).isPrefixOf (encodeChars (d :: text)) = true := by
          intro here
          exact elsewhere (List.isPrefixOf_iff_prefix.2
            (encodeChars_prefix_iff.1 (List.isPrefixOf_iff_prefix.1 here)))
        rw [encodeChars_cons, bytes, List.cons_append] at notHere ⊢
        rw [Pieces.splitAtFirst_cons, if_neg notHere, Pieces.splitAtFirst_skip _ nonempty apart, ih]
        cases Pieces.splitAtFirst pattern text with
        | none => rfl
        | some found => simp [bytes]

/-! ## What is read without fault was written -/

/-- The first byte of a character tells how many follow, and no character is written longer
than it has to be. -/
theorem readFirst_begins {b : Nat} {p : Pending} (pending : (readFirst b).2 = some p) :
    p.owed = 1 ∧ b = 0xC0 + p.value ∧ 2 ≤ p.value ∧ p.value < 0x20 ∨
    p.owed = 2 ∧ b = 0xE0 + p.value ∧ p.value < 0x10 ∧
      0x20 ≤ p.value * 0x40 + (p.low - 0x80) ∨
    p.owed = 3 ∧ b = 0xF0 + p.value ∧ p.value < 5 ∧
      0x10 ≤ p.value * 0x40 + (p.low - 0x80) := by
  unfold readFirst at pending
  repeat' split at pending
  all_goals cases pending
  all_goals simp
  all_goals omega

/-- An unfinished character, where nothing is malformed, goes on with a byte that it asks for. -/
theorem decodeFrom_next {owed low high value : Nat} {bytes : Bytes} {text : List Char}
    (read : decodeFrom [] (some ⟨owed, low, high, value⟩) bytes = text.map some) :
    ∃ b rest, bytes = b :: rest ∧ low ≤ b.toNat ∧ b.toNat ≤ high ∧
      decodeFrom [] (some ⟨owed, low, high, value⟩) bytes =
        if owed ≤ 1 then
          some (Char.ofNat (value * 0x40 + (b.toNat - 0x80))) :: decodeFrom [] none rest
        else decodeFrom [] (some ⟨owed - 1, 0x80, 0xBF, value * 0x40 + (b.toNat - 0x80)⟩) rest := by
  have whole : none ∉ decodeFrom [] (some ⟨owed, low, high, value⟩) bytes := by simp [read]
  cases bytes with
  | nil => exact absurd (by simp [decodeFrom]) whole
  | cons b rest =>
      by_cases inside : low ≤ b.toNat ∧ b.toNat ≤ high
      · exact ⟨b, rest, rfl, inside.1, inside.2, decodeFrom_inside inside.1 inside.2 rest⟩
      · rw [decodeFrom_cons, Utf8.read, readNext, if_neg inside] at whole
        exact absurd (by simp) whole

theorem encodeChar_ofNat {n : Nat} (valid : n.isValidChar) :
    encodeChar (Char.ofNat n) =
      if n < 0x80 then [UInt8.ofNat n]
      else if n < 0x800 then [UInt8.ofNat (0xC0 + n / 0x40), UInt8.ofNat (0x80 + n % 0x40)]
      else if n < 0x10000 then
        [UInt8.ofNat (0xE0 + n / 0x1000), UInt8.ofNat (0x80 + n / 0x40 % 0x40),
          UInt8.ofNat (0x80 + n % 0x40)]
      else
        [UInt8.ofNat (0xF0 + n / 0x40000), UInt8.ofNat (0x80 + n / 0x1000 % 0x40),
          UInt8.ofNat (0x80 + n / 0x40 % 0x40), UInt8.ofNat (0x80 + n % 0x40)] := by
  rw [encodeChar, toNat_ofNat valid]

theorem ofNat_of_eq {n : Nat} {b : UInt8} (same : n = b.toNat) : UInt8.ofNat n = b := by
  rw [same, UInt8.ofNat_toNat]

/-- Behind the first byte of a character, where nothing is malformed, are the other bytes that
are written for one. -/
theorem decodeFrom_begun {b : UInt8} {p : Pending} (begun : (readFirst b.toNat).2 = some p)
    {bytes : Bytes} {text : List Char} (read : decodeFrom [] (some p) bytes = text.map some) :
    ∃ c others rest, encodeChar c = b :: others ∧ bytes = others ++ rest ∧
      decodeFrom [] (some p) bytes = some c :: decodeFrom [] none rest := by
  have first := readFirst_begins begun
  obtain ⟨least, greatest, wide⟩ := readFirst_sound begun
  obtain ⟨owed, low, high, value⟩ := p
  simp only [Wide] at first least greatest wide
  obtain ⟨c₁, bytes₁, rfl, low₁, high₁, next₁⟩ := decodeFrom_next read
  -- by the number of bytes that follow the first one
  rcases first with
    ⟨rfl, lead, above, below⟩ | ⟨rfl, lead, below, above⟩ | ⟨rfl, lead, below, above⟩
  · rw [if_pos (Nat.le_refl 1)] at next₁
    refine ⟨_, [c₁], bytes₁, ?_, rfl, next₁⟩
    rw [encodeChar_ofNat (by simp only [Nat.isValidChar]; omega), if_neg (by omega),
      if_pos (by omega), ofNat_of_eq (b := b) (by omega), ofNat_of_eq (b := c₁) (by omega)]
  · rw [if_neg (by omega)] at next₁
    rw [next₁] at read
    obtain ⟨c₂, bytes₂, rfl, low₂, high₂, next₂⟩ := decodeFrom_next read
    rw [if_pos (Nat.le_refl 1)] at next₂
    refine ⟨_, [c₁, c₂], bytes₂, ?_, rfl, next₁.trans next₂⟩
    rw [encodeChar_ofNat (by simp only [Nat.isValidChar]; omega), if_neg (by omega),
      if_neg (by omega), if_pos (by omega), ofNat_of_eq (b := b) (by omega),
      ofNat_of_eq (b := c₁) (by omega), ofNat_of_eq (b := c₂) (by omega)]
  · rw [if_neg (by omega)] at next₁
    rw [next₁] at read
    obtain ⟨c₂, bytes₂, rfl, low₂, high₂, next₂⟩ := decodeFrom_next read
    rw [if_neg (by omega)] at next₂
    rw [next₂] at read
    obtain ⟨c₃, bytes₃, rfl, low₃, high₃, next₃⟩ := decodeFrom_next read
    rw [if_pos (Nat.le_refl 1)] at next₃
    refine ⟨_, [c₁, c₂, c₃], bytes₃, ?_, rfl, (next₁.trans next₂).trans next₃⟩
    rw [encodeChar_ofNat (by simp only [Nat.isValidChar]; omega), if_neg (by omega),
      if_neg (by omega), if_neg (by omega), ofNat_of_eq (b := b) (by omega),
      ofNat_of_eq (b := c₁) (by omega), ofNat_of_eq (b := c₂) (by omega),
      ofNat_of_eq (b := c₃) (by omega)]

/-- Bytes of which nothing is malformed are those of the text that they spell. -/
theorem encodeChars_of_decode {bytes : Bytes} {text : List Char}
    (read : decode bytes = text.map some) : encodeChars text = bytes := by
  induction length : bytes.length using Nat.strongRecOn generalizing bytes text with
  | _ n ih =>
      subst length
      cases bytes with
      | nil =>
          obtain rfl : text = [] := by simpa [decode, decodeFrom] using read
          rfl
      | cons b bytes =>
          unfold decode at read
          rw [decodeFrom_cons, Utf8.read] at read
          rcases readFirst_cases b.toNat with ⟨first, one⟩ | ⟨p, begun⟩
          · rw [one, List.singleton_append] at read
            obtain ⟨c, text, rfl, rfl, later⟩ := List.map_eq_cons_iff.1 read.symm
            obtain ⟨ascii, rfl⟩ := @mem_readFirst b.toNat c (by rw [one]; exact List.mem_cons_self)
            rw [encodeChars_cons, ih _ (by simp) later.symm rfl,
              encodeChar_ofNat (Or.inl (by omega)), if_pos ascii, ofNat_of_eq rfl]
            rfl
          · rw [begun, List.nil_append] at read
            obtain ⟨c, others, rest, whole, rfl, next⟩ := decodeFrom_begun (by rw [begun]) read
            rw [next] at read
            obtain ⟨c', text, rfl, same, later⟩ := List.map_eq_cons_iff.1 read.symm
            obtain rfl := Option.some.inj same
            have shorter : rest.length < (b :: (others ++ rest)).length := by
              rw [List.length_cons, List.length_append]
              omega
            rw [encodeChars_cons, ih _ shorter later.symm rfl, whole, List.cons_append]

/-- **What is read without fault was written**: bytes are those of a text exactly when they are
read as that text with nothing malformed. -/
theorem decode?_eq_some_iff {bytes : Bytes} {text : String} :
    decode? bytes = some text ↔ encode text = bytes := by
  constructor
  · intro read
    unfold decode? at read
    dsimp only at read
    split at read
    · rename_i whole
      have found : (decode bytes).filterMap id = text.toList := by
        rw [← Option.some.inj read, String.toList_ofList]
      have spelled : decode bytes = ((decode bytes).filterMap id).map some := by
        generalize decode bytes = found at whole
        induction found with
        | nil => rfl
        | cons first later ih =>
            rw [List.all_cons, Bool.and_eq_true] at whole
            obtain ⟨c, rfl⟩ := Option.isSome_iff_exists.1 whole.1
            simpa using ih whole.2
      rw [found] at spelled
      exact encodeChars_of_decode spelled
    · cases read
  · rintro rfl
    exact decode?_encode text

end TokenBlame.Utf8
