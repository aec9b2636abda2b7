/-
# TokenBlame.Color -- a colour for every commit

The colour of a commit depends on its id alone.  A hash of the id (FNV-1a, 64 bits)
seeds a stream cipher (ChaCha with twelve rounds), whose first word chooses a hue;
lightness and chroma are fixed, so that all colours are equally strong.

The seed becomes a key by a small generator of its own: a linear congruence whose
state is permuted into one word of the key at each step.
-/
import TokenBlame.Text.Utf8
import TokenBlame.Text.Numeral

set_option autoImplicit false

namespace TokenBlame.Color

/-! ## From an id to a word -/

/-- The FNV-1a hash of a byte string. -/
def hash (bytes : Bytes) : UInt64 :=
  bytes.foldl (fun h b => (h ^^^ b.toUInt64) * 0x100000001b3) 0xcbf29ce484222325

/-- Rotate a word to the left by `n` bits, `0 < n < 32`. -/
def rotate (n : UInt32) (word : UInt32) : UInt32 :=
  (word <<< n) ||| (word >>> (32 - n))

/-- Rotate a word to the right by `n` bits, modulo 32. -/
def rotateRight (n : UInt32) (word : UInt32) : UInt32 :=
  (word >>> (n % 32)) ||| (word <<< ((32 - n % 32) % 32))

/-- The state of the generator behind `state`. -/
def nextSeed (state : UInt64) : UInt64 :=
  state * 6364136223846793005 + 11634580027462260723

/-- The word that a state of the generator is permuted into. -/
def seedWord (state : UInt64) : UInt32 :=
  rotateRight (state >>> 59).toUInt32 ((((state >>> 18) ^^^ state) >>> 27).toUInt32)

/-- `count` words of the key. -/
def key : Nat → UInt64 → List UInt32
  | 0, _ => []
  | count + 1, seed => seedWord (nextSeed seed) :: key count (nextSeed seed)

/-- Mix the words at four places of the cipher's state. -/
def quarterRound (s : Array UInt32) (a b c d : Nat) : Array UInt32 :=
  let va := s.getD a 0 + s.getD b 0
  let vd := rotate 16 (s.getD d 0 ^^^ va)
  let vc := s.getD c 0 + vd
  let vb := rotate 12 (s.getD b 0 ^^^ vc)
  let va := va + vb
  let vd := rotate 8 (vd ^^^ va)
  let vc := vc + vd
  let vb := rotate 7 (vb ^^^ vc)
  (((s.setIfInBounds a va).setIfInBounds b vb).setIfInBounds c vc).setIfInBounds d vd

/-- A round on the columns and a round on the diagonals. -/
def doubleRound (s : Array UInt32) : Array UInt32 :=
  [(0, 4, 8, 12), (1, 5, 9, 13), (2, 6, 10, 14), (3, 7, 11, 15),
    (0, 5, 10, 15), (1, 6, 11, 12), (2, 7, 8, 13), (3, 4, 9, 14)].foldl
      (fun s (a, b, c, d) => quarterRound s a b c d) s

/-- The first word of the cipher under a key: counter and nonce are zero. -/
def firstWord (key : List UInt32) : UInt32 :=
  let s := ([0x61707865, 0x3320646e, 0x79622d32, 0x6b206574] ++ key ++ [0, 0, 0, 0]).toArray
  let mixed := (List.range 6).foldl (fun s _ => doubleRound s) s
  mixed.getD 0 0 + s.getD 0 0

/-- The word that chooses the hue of a commit. -/
def word (id : String) : UInt32 :=
  firstWord (key 8 (hash (Utf8.encode id)))

/-! ## From a word to a colour -/

/-- The hue that a word chooses, in degrees: its upper 23 bits as a fraction of a turn. -/
def hue (word : UInt32) : Float :=
  (word >>> 9).toNat.toFloat / 8388608.0 * 360.0

/-- The inverse of the response of the eye in the colour space Lab. -/
def response (c : Float) : Float :=
  if c > 6.0 / 29.0 then c * c * c else (c - 4.0 / 29.0) * 108.0 / 841.0

/-- A linear intensity as a display takes it. -/
def gamma (v : Float) : Float :=
  if v <= 0.0031308 then 12.92 * v else 1.055 * Float.pow v (1.0 / 2.4) - 0.055

/-- An intensity from zero to one as a byte, rounded to the nearest. -/
def channel (v : Float) : Nat :=
  let clamped := if v < 0.0 then 0.0 else if v > 1.0 then 1.0 else v
  (Float.round (clamped * 255.0)).toUInt8.toNat

/-- Red, green and blue of the colour with a hue in degrees, lightness 55 and chroma 70. -/
def channels (hue : Float) : List Nat :=
  let angle := hue * 3.14159265358979323846 / 180.0
  let fy := (55.0 + 16.0) / 116.0
  let fx := fy + 70.0 * Float.cos angle / 500.0
  let fz := fy - 70.0 * Float.sin angle / 200.0
  let x := 0.95047 * response fx
  let y := response fy
  let z := 1.08883 * response fz
  [3.2404542 * x - 1.5371385 * y - 0.4985314 * z,
    -0.9692660 * x + 1.8760108 * y + 0.0415560 * z,
    0.0556434 * x - 0.2040259 * y + 1.0572252 * z].map fun v => channel (gamma v)

/-- The colour of a commit: a number sign and two hexadecimal digits for each channel. -/
def ofCommit (id : String) : String :=
  String.ofList ('#' :: (channels (hue (word id))).flatMap fun n =>
    [Numeral.hexDigit (n / 16), Numeral.hexDigit (n % 16)])

end TokenBlame.Color
