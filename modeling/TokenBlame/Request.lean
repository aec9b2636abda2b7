/-
# TokenBlame.Request -- what is asked of the server

A request has a method and a target.  A target is a path with a query, or these behind
a scheme and an authority, or an authority alone, or an asterisk.  What stands behind
`#` is left out.

`parse?` refuses a method that is no token, a target with a character that may not
stand where it does, an authority that is not well formed and a target that is too long.
-/
import TokenBlame.Text.Pieces

set_option autoImplicit false

namespace TokenBlame

/-- A request. -/
structure Request where
  method : String
  /-- The path; empty where the target is an authority alone. -/
  path : String
  query : String := ""
  deriving DecidableEq, Repr

namespace Request

/-! ## Characters -/

/-- A character of a method. -/
def isTokenChar (c : Char) : Bool :=
  c.isAlphanum || "!#$%&'*+-.^_\x60|~".toList.contains c

/-- A character of a path: it is neither a control character nor a space nor one of a few
marks. -/
def isPathChar (c : Char) : Bool :=
  0x20 < c.toNat && !"#<>?\x60".toList.contains c

/-- A character of a query. -/
def isQueryChar (c : Char) : Bool :=
  0x20 < c.toNat && !"\"#<>".toList.contains c

/-- A character of a scheme. -/
def isSchemeChar (c : Char) : Bool :=
  c.isAlphanum || "+-.~".toList.contains c

/-- A character of an authority. -/
def isAuthorityChar (c : Char) : Bool :=
  c.isAlphanum || "!$%&'()*+,-.:;=@[]_~".toList.contains c

/-- A character that ends an authority. -/
def endsAuthority (c : Char) : Bool :=
  "/?#".toList.contains c

/-! ## Authorities -/

/-- The number of colons that one part of an authority may hold. -/
def maxColons : Nat := 8

/-- The part of an authority behind the last `@` and `]`: a host, or a port with its colon
in front.  It holds one colon at most and nothing that is written with a percent sign. -/
def isLastPart (part : List Char) : Bool :=
  part.count ':' ≤ 1 && !part.contains '%'

/-- A part of an authority between `@` and `]`.  Nothing in front of a bracket is written
with a percent sign. -/
def isPart (part : List Char) : Bool :=
  part.count ':' ≤ maxColons &&
    !(part.contains '[' && (part.takeWhile (· != '[')).contains '%')

/-- Brackets stand in one pair, if there are any. -/
def isBracketed (authority : List Char) : Bool :=
  let brackets := authority.filter fun c => c == '[' || c == ']'
  brackets == [] || brackets == ['[', ']']

/-- Whether a text is an authority; the empty one is one. -/
def isAuthority (text : List Char) : Bool :=
  let parts := Pieces.splitBy (fun c => c == '@' || c == ']') text
  text.all isAuthorityChar && isBracketed text && text.getLast? != some '@' &&
    parts.all isPart && isLastPart (parts.getLast?.getD [])

/-! ## Targets -/

/-- The longest target. -/
def maxLength : Nat := 65534

/-- The longest scheme. -/
def maxScheme : Nat := 64

/-- What stands behind the scheme of a target, if it has one; a scheme that is too long is
refused. -/
def splitScheme (target : List Char) : Except Unit (Option (List Char)) :=
  let scheme := target.takeWhile isSchemeChar
  let rest := target.drop scheme.length
  if target.length ≤ 3 || !"://".toList.isPrefixOf rest then .ok none
  else if maxScheme < scheme.length then .error ()
  else .ok (some (rest.drop 3))

/-- The request of a path with its query, up to a fragment. -/
def ofPath? (method : String) (text : List Char) : Option Request :=
  let whole := text.takeWhile (· != '#')
  let path := whole.takeWhile (· != '?')
  let query := (whole.dropWhile (· != '?')).drop 1
  if path.all isPathChar && query.all isQueryChar then
    some ⟨method, if path.isEmpty then "/" else String.ofList path, String.ofList query⟩
  else none

/-- The request of a target that does not begin with a slash. -/
def ofAddress? (method : String) (target : List Char) : Option Request :=
  match splitScheme target with
  | .error () => none
  | .ok none => if isAuthority target then some { method, path := "" } else none
  | .ok (some rest) =>
      let authority := rest.takeWhile fun c => !endsAuthority c
      if authority.isEmpty || !isAuthority authority then none
      else ofPath? method (rest.drop authority.length)

/-- The request of a method and a target. -/
def parse? (method target : String) : Option Request :=
  if method.isEmpty || !method.toList.all isTokenChar then none
  else if target.isEmpty || maxLength < target.utf8ByteSize then none
  else if target = "*" then some { method, path := "*" }
  else if target.toList.head? = some '/' then ofPath? method target.toList
  else ofAddress? method target.toList

end Request

end TokenBlame
