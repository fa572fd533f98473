import Mathlib.Data.List.Basic
import Mathlib.Tactic.Common

/-!
# Bit-serial checksums

An eight-bit cyclic redundancy check, one bit at a time and highest bit first.

## Main definitions

* `Crc.oneStep`, `Crc.hash`
-/

namespace LeapPlatforms

namespace Crc

/-- Shift one bit into the remainder, and reduce it by the polynomial. -/
def oneStep (poly : BitVec 9) (bitIn : Bool) (rem : BitVec 8) : BitVec 8 :=
  let result := rem ++ BitVec.ofBool bitIn
  (if rem.msb then result ^^^ poly else result).setWidth 8

/-- The remainder of a bit string, highest bit first. -/
def hash (poly : BitVec 9) (initializer : BitVec 8) {w : ℕ} (bitsIn : BitVec w) : BitVec 8 :=
  (List.range w).foldr (fun i rem => oneStep poly (bitsIn.getLsbD i) rem) initializer

end Crc

end LeapPlatforms
