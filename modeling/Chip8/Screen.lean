/-! # The screen

    64 columns by 32 rows of pixels, each lit or dark, stored row by row: the pixel in column `x` of
    row `y` is cell `64 y + x`. A pixel is only ever flipped, and all of them darkened at once.
    Columns are not checked against the width: past the right edge a row runs on into the next one,
    and only cells past the last one do not exist. Cell numbers are words of 64 bits, so far enough
    outside they begin again at zero. -/

namespace Chip8

/-- The pixels, row by row. -/
structure Screen where
  cells : Vector Bool 2048
  deriving DecidableEq

namespace Screen

/-- Columns. -/
def width : Nat := 64

/-- Rows. -/
def height : Nat := 32

/-- Pixels. -/
def size : Nat := width * height

/-- All pixels dark. -/
def blank : Screen := ⟨Vector.replicate 2048 false⟩

/-- The cell of a pixel, a word of 64 bits. -/
def cell (x y : Nat) : Nat := (y * width + x) % UInt64.size

/-- Whether a pixel is lit, if its cell exists. -/
def get? (s : Screen) (x y : Nat) : Option Bool := s.cells[cell x y]?

/-- Whether a pixel is lit; a cell that does not exist is dark. -/
def isLit (s : Screen) (x y : Nat) : Bool := (s.get? x y).getD false

/-- Flips a pixel, if its cell exists. Also tells whether it was lit before. -/
def toggle? (s : Screen) (x y : Nat) : Option (Bool × Screen) :=
  if h : cell x y < 2048 then
    some (s.cells[cell x y], ⟨s.cells.set (cell x y) (!s.cells[cell x y])⟩)
  else none

/-- Flips pixels one after the other. Also tells whether any of them was lit when its turn came. -/
def toggleAll? (s : Screen) : List (Nat × Nat) → Option (Bool × Screen)
  | [] => some (false, s)
  | (x, y) :: pixels => do
    let (was, s) ← s.toggle? x y
    let (hit, s) ← s.toggleAll? pixels
    return (was || hit, s)

/-! ### Views -/

/-- The rows from top to bottom, each from left to right. -/
def rows (s : Screen) : List (List Bool) :=
  (List.range height).map fun y => (List.range width).map fun x => s.isLit x y

/-- The numbers of the lit cells, ascending. -/
def lit (s : Screen) : List Nat := (List.range size).filter fun c => s.cells[c]?.getD false

/-- A lit pixel is `#`, a dark one a blank. -/
def pixelChar (on : Bool) : Char := if on then '#' else ' '

/-- One line per row, each ended by a newline. -/
def text (s : Screen) : String :=
  String.ofList (s.rows.flatMap fun row => row.map pixelChar ++ ['\n'])

/-- A short description: the number of lit pixels. -/
def summary (s : Screen) : String :=
  "Framebuffer \x7b lit: " ++ String.ofList (Nat.toDigits 10 (s.cells.toList.count true)) ++ " \x7d"

/-! ### Pixels -/

/-- Inside the screen no cell number is cut off. -/
theorem cell_eq {x y : Nat} (hx : x < 64) (hy : y < 32) : cell x y = y * 64 + x := by
  simp only [cell, width, UInt64.size]
  omega

end Screen

end Chip8
