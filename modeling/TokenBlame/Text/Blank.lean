/-
# TokenBlame.Text.Blank -- white space

The white space of the Unicode standard (property `White_Space`), twenty-five
characters, decides where a line is blank and where its words end.  Commit
summaries use the narrower ASCII class.
-/
import TokenBlame.Text.Pieces

set_option autoImplicit false

namespace TokenBlame.Blank

/-- The characters with the Unicode property `White_Space`. -/
def isBlank (c : Char) : Bool :=
  let n := c.toNat
  (9 ≤ n && n ≤ 13) || n == 0x20 || n == 0x85 || n == 0xA0 || n == 0x1680 ||
    (0x2000 ≤ n && n ≤ 0x200A) || n == 0x2028 || n == 0x2029 || n == 0x202F || n == 0x205F ||
    n == 0x3000

/-- The white space of ASCII, as bytes. -/
def isBlankByte (b : UInt8) : Bool :=
  b == 0x20 || (9 ≤ b && b ≤ 13)

/-- Every white-space character of the core library is one. -/
theorem isBlank_of_isWhitespace {c : Char} (blank : c.isWhitespace = true) : isBlank c = true := by
  simp only [Char.isWhitespace, Bool.or_eq_true, decide_eq_true_eq] at blank
  rcases blank with ((rfl | rfl) | rfl) | rfl <;> decide

/-- Without the white space at the end. -/
def trimEnd (text : List Char) : List Char :=
  (text.reverse.dropWhile isBlank).reverse

/-- Without the white space at both ends. -/
def trim (text : List Char) : List Char :=
  trimEnd (text.dropWhile isBlank)

/-- The words between white space. -/
def words (text : List Char) : List (List Char) :=
  Pieces.runs (fun c => !isBlank c) text

end TokenBlame.Blank
