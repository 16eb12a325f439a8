import Chip8.Terminal.Canvas

/-! # The grid

    What a terminal shows: a character at every column and row. Text appears from its place
    rightward, one character to a column, over whatever was there. Clearing leaves blanks, and the
    other writes change no character. -/

namespace Chip8.Terminal

/-- The characters of a terminal, by column and row. -/
abbrev Grid := Nat → Nat → Char

namespace Grid

/-- Nothing but blanks. -/
def blank : Grid := fun _ _ => ' '

/-- Puts characters at a place and rightward of it. -/
def put (g : Grid) (column row : Nat) (cs : List Char) : Grid := fun x y =>
  if y = row ∧ column ≤ x then cs[x - column]?.getD (g x y) else g x y

/-- The grid after a write. -/
def apply (g : Grid) : Write → Grid
  | .text column row s => g.put column row s.toList
  | .clear => blank
  | .enterScreen | .leaveScreen | .hideCursor | .showCursor | .bell => g

/-- The grid after writes in order. -/
def applyAll (g : Grid) (ws : List Write) : Grid := ws.foldl apply g

end Grid

end Chip8.Terminal
