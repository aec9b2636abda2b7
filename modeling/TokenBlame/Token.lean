/-
# TokenBlame.Token -- the tokens of a file

A token is a maximal run of ASCII letters, digits and underscores (a word) or one of
27 punctuation characters.  Every other byte separates tokens.

In a Python file (its path ends in `.py`) the blanks that begin a line are a token
as well, so that a change of indentation is a change of tokens.  They count only
when something visible follows them on their line: a byte other than a carriage
return, a vertical tab and a form feed.

The bytes are scanned from the last one to the first, and `Scan` is what is known of
the bytes scanned so far: the word and the blanks that begin them, and the tokens
behind that word.
-/
import TokenBlame.Text.Utf8

set_option autoImplicit false

namespace TokenBlame.Token

/-! ## Classes of bytes -/

/-- The characters that are tokens of their own. -/
def punctuation : List Char :=
  ['\x7b', '\x7d', '[', ']', '"', '\'', '(', ')', '\\', '*', '#', '/', '.', '-', '<', '>', '&',
    '!', '+', '%', '^', '~', '?', ':', '=', '|', ';']

/-- A byte of a word. -/
def isWordByte (b : UInt8) : Bool :=
  (0x30 ≤ b && b ≤ 0x39) || (0x41 ≤ b && b ≤ 0x5A) || (0x61 ≤ b && b ≤ 0x7A) || b == 0x5F

/-- A byte that is a token of its own. -/
def isPunctuation (b : UInt8) : Bool :=
  punctuation.any fun c => c.toNat == b.toNat

/-- A byte of an indentation. -/
def isIndent (b : UInt8) : Bool :=
  b == 0x20 || b == 0x09

/-- A byte that is nothing to indent. -/
def isInvisible (b : UInt8) : Bool :=
  b == 0x20 || (0x09 ≤ b && b ≤ 0x0D)

/-! ## Scanning -/

/-- What is known of the bytes from some place to the end. -/
structure Scan where
  /-- The word that begins here, empty if none does. -/
  word : Bytes
  /-- The blanks that begin here. -/
  indent : Bytes
  /-- The byte behind those blanks. -/
  next : Option UInt8
  /-- The tokens behind the word. -/
  later : List Bytes
  deriving DecidableEq, Repr

namespace Scan

/-- At the end nothing follows. -/
def finish : Scan := ⟨[], [], none, []⟩

/-- The tokens that begin here, the word included. -/
def tokens (s : Scan) : List Bytes :=
  if s.word.isEmpty then s.later else s.word :: s.later

/-- The tokens when a line begins here: the indentation first, if it counts. -/
def lineTokens (s : Scan) : List Bytes :=
  if !s.indent.isEmpty && (s.next.any fun b => !isInvisible b) then s.indent :: s.tokens
  else s.tokens

/-- Scan one more byte in front; `indented` tells whether indentation makes tokens. -/
def push (indented : Bool) (b : UInt8) (s : Scan) : Scan :=
  if isWordByte b then ⟨b :: s.word, [], some b, s.later⟩
  else if isPunctuation b then ⟨[], [], some b, [b] :: s.tokens⟩
  else if isIndent b then ⟨[], b :: s.indent, s.next, s.tokens⟩
  else if indented && b == 0x0A then ⟨[], [], some b, s.lineTokens⟩
  else ⟨[], [], some b, s.tokens⟩

end Scan

/-- Scan a whole file. -/
def scan (indented : Bool) (content : Bytes) : Scan :=
  content.foldr (Scan.push indented) Scan.finish

/-- Whether indentation makes tokens in the file of this path. -/
def isIndented (path : String) : Bool :=
  ['.', 'p', 'y'].isSuffixOf path.toList

/-- The tokens of a file in order. -/
def tokens (path : String) (content : Bytes) : List Bytes :=
  if isIndented path then (scan true content).lineTokens else (scan false content).tokens

/-- One token a line, each line ended by a newline. -/
def lines (tokens : List Bytes) : Bytes :=
  tokens.flatMap fun token => token ++ [0x0A]

/-- A file as one token a line. -/
def tokenize (path : String) (content : Bytes) : Bytes :=
  lines (tokens path content)

end TokenBlame.Token
