import Chip8.Screen

/-! # Sprites

    A sprite is a column of bytes; each byte is a row of eight pixels, the highest bit leftmost.
    Drawing flips the pixels under the set bits. A coordinate past the edge wraps around or, without
    wrapping, makes its pixel fall off the screen; rows and columns are treated one by one. -/

namespace Chip8.Sprite

/-- Where a coordinate lands on an axis of `size` pixels, if anywhere. -/
def onAxis? (wrap : Bool) (size coord : Nat) : Option Nat :=
  if coord < size then some coord else if wrap then some (coord % size) else none

/-- Whether column `col` of a sprite row is set. -/
def isSet (row : UInt8) (col : Nat) : Bool := row.toNat.testBit (7 - col)

/-- The pixels that one row flips when its left end is at column `x`, on screen row `y`. -/
def rowPixels (wrap : Bool) (x y : Nat) (row : UInt8) : List (Nat × Nat) :=
  (List.range 8).filterMap fun col =>
    if isSet row col then (onAxis? wrap Screen.width (x + col)).map fun px => (px, y) else none

/-- The pixels that a sprite flips when its top left corner is at column `x`, row `y`, from top to
    bottom and from left to right. -/
def pixels (wrap : Bool) (x y : Nat) : List UInt8 → List (Nat × Nat)
  | [] => []
  | row :: rows =>
    (match onAxis? wrap Screen.height y with
      | some py => rowPixels wrap x py row
      | none => [])
    ++ pixels wrap x (y + 1) rows

end Chip8.Sprite
