/-
# TokenBlame.Git.ObjectId -- the names of objects

An object is named by the SHA-1 digest of its kind, its length and its bytes.  A name
is written as forty lower-case hexadecimal digits.
-/
import TokenBlame.Digest.Sha1
import TokenBlame.Text.Numeral

set_option autoImplicit false

namespace TokenBlame.Git

/-- The name of an object: forty lower-case hexadecimal digits. -/
structure ObjectId where
  hex : String
  deriving DecidableEq, Repr, Inhabited

namespace ObjectId

/-- The name of the object with a kind and its bytes. -/
def ofObject (kind : String) (body : Bytes) : ObjectId :=
  ⟨Numeral.hexOfBytes (Sha1.digest
    (Utf8.encode kind ++ 0x20 :: Utf8.encode (toString body.length) ++ 0x00 :: body))⟩

/-- The twenty bytes of a name. -/
def raw (id : ObjectId) : Bytes :=
  (Numeral.bytesOfHex? id.hex.toList).getD []

/-- The name that a text spells in full, in either case. -/
def parse? (text : String) : Option ObjectId :=
  if text.length == 40 && text.toList.all Numeral.isHex then
    some ⟨String.ofList (text.toList.map Char.toLower)⟩
  else none

end ObjectId

end TokenBlame.Git
