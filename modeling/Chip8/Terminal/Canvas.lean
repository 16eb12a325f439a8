import Chip8.Screen

/-! # The canvas

    How the screen is drawn on a terminal: inside a box, every pixel two columns wide. What is sent
    to the terminal is a row of writes. The canvas knows what it has drawn, and a redraw writes just
    the pixels that differ from that, row by row and from left to right.

        ┏━━━━━━┓
        ┃██  ██┃     pixel (x, y) is at columns 2x + 1 and 2x + 2 of row y + 1
        ┗━━━━━━┛ -/

namespace Chip8.Terminal

/-- One thing sent to a terminal. Text is written at a column and a row, counted from zero. -/
inductive Write where
  | enterScreen
  | leaveScreen
  | hideCursor
  | showCursor
  | clear
  | bell
  | text (column row : Nat) (s : String)
  deriving DecidableEq, Repr

/-- The screen as it was last drawn. -/
structure Canvas where
  shown : Screen
  deriving DecidableEq

namespace Canvas

/-- The last column of the box. -/
def right : Nat := 2 * Screen.width + 1

/-- The last row of the box. -/
def bottom : Nat := Screen.height + 1

/-- The character of the box at a place, if the box passes there. -/
def boxChar? (column row : Nat) : Option Char :=
  if row = 0 then
    some (if column = 0 then '┏' else if column = right then '┓' else '━')
  else if row = bottom then
    some (if column = 0 then '┗' else if column = right then '┛' else '━')
  else if column = 0 ∨ column = right then some '┃'
  else none

/-- Draws the box. -/
def box : List Write :=
  (List.range (bottom + 1)).flatMap fun row =>
    (List.range (right + 1)).filterMap fun column =>
      (boxChar? column row).map fun c => .text column row (String.ofList [c])

/-- Takes over the terminal. -/
def opening : List Write := [.enterScreen, .hideCursor, .clear] ++ box

/-- Gives the terminal back. -/
def closing : List Write := [.leaveScreen, .showCursor]

/-- A canvas on which no pixel is lit. -/
def blank : Canvas := ⟨Screen.blank⟩

/-- How a pixel looks: two full blocks, or two blanks. -/
def pixelText (on : Bool) : String := if on then "██" else "  "

/-- Draws one pixel. -/
def pixelWrite (x y : Nat) (on : Bool) : Write := .text (2 * x + 1) (y + 1) (pixelText on)

/-- Draws the pixels in which two screens differ. -/
def changes (before after : Screen) : List Write :=
  (List.range Screen.height).flatMap fun y =>
    (List.range Screen.width).filterMap fun x =>
      let on := after.isLit x y
      if on = before.isLit x y then none else some (pixelWrite x y on)

/-- Brings the terminal up to date with a screen. -/
def redraw (c : Canvas) (screen : Screen) : List Write × Canvas :=
  if c.shown = screen then ([], c) else (changes c.shown screen, ⟨screen⟩)

end Canvas

end Chip8.Terminal
