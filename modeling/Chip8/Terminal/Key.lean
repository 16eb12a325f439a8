/-! # Terminal keys

    The keys that a terminal tells apart, and their meaning on the sixteen-key keypad: the digits of
    hexadecimal numbers, in either case. -/

namespace Chip8.Terminal

/-- A key of a terminal. -/
inductive Key where
  | char (c : Char)
  | function (n : Nat)
  | backspace | enter | tab | backTab | esc | null | delete
  | left | right | up | down | home | toEnd
  deriving DecidableEq, Repr

namespace Key

/-- The value of a hexadecimal digit. -/
def hexValue? (c : Char) : Option UInt8 :=
  if '0' ≤ c ∧ c ≤ '9' then some (UInt8.ofNat (c.toNat - '0'.toNat))
  else if 'a' ≤ c ∧ c ≤ 'f' then some (UInt8.ofNat (10 + (c.toNat - 'a'.toNat)))
  else if 'A' ≤ c ∧ c ≤ 'F' then some (UInt8.ofNat (10 + (c.toNat - 'A'.toNat)))
  else none

/-- The keypad key that a terminal key stands for. -/
def keypad? : Key → Option UInt8
  | .char c => hexValue? c
  | _ => none

/-- The key that ends the interactive program. -/
def quit : Key := .char 'q'

end Key

end Chip8.Terminal
