/-! # Numerals

    Numbers as text, in the few spellings that messages use, and the reading of a count typed by a
    user. A hexadecimal number is marked by `0x` and written in lower case; a *padded* one is filled
    with zeros on the left to at least a given number of digits, and grows beyond it where the
    number is longer. -/

namespace Chip8.Numeral

/-- Decimal text: no sign, no leading zero, one digit for zero. -/
def decimal (n : Nat) : String := String.ofList (Nat.toDigits 10 n)

/-- Zeros in front of `digits` until there are `width` of them. -/
def padded (width : Nat) (digits : List Char) : List Char :=
  List.replicate (width - digits.length) '0' ++ digits

/-- Marked hexadecimal text with at least `width` digits. -/
def hex (width : Nat) (n : Nat) : String :=
  "0x" ++ String.ofList (padded width (Nat.toDigits 16 n))

/-- Unmarked hexadecimal text in upper case, the way registers are numbered. -/
def hexUpper (n : Nat) : String := String.ofList ((Nat.toDigits 16 n).map Char.toUpper)

/-! ### Reading -/

/-- The value of one decimal digit. -/
def digit? (c : Char) : Option Nat := if c.isDigit then some (c.toNat - '0'.toNat) else none

/-- The value of a row of decimal digits, read on from `acc`. -/
def digits? (acc : Nat) : List Char → Option Nat
  | [] => some acc
  | c :: cs => (digit? c).bind fun d => digits? (10 * acc + d) cs

/-- Reads a number below `bound`: at least one decimal digit, after at most one plus sign. -/
def read? (bound : Nat) (text : String) : Option Nat :=
  let digits := match text.toList with
    | '+' :: cs => cs
    | cs => cs
  if digits.isEmpty then none
  else (digits? 0 digits).filter (· < bound)

end Chip8.Numeral
