import Chip8.Text.Numeral

/-! # Errors

    Everything that can stop a machine, or that it refuses. An error has two texts: a message for
    people, with addresses in hexadecimal, and a record that shows the cause and its fields in
    decimal. -/

namespace Chip8

/-- Why a machine stopped, or refused what it was given. -/
inductive Error where
  | unknownOpcode (opcode pc : UInt16)
  | stackOverflow (pc : UInt16)
  | stackUnderflow (pc : UInt16)
  | romTooLarge (size maxSize : Nat)
  | invalidSpeed
  | invalidKey (key : UInt8)
  deriving DecidableEq, Repr

namespace Error

open Numeral (decimal hex)

/-- The message for people. Words have at least four digits, addresses three, keys one. -/
def message : Error → String
  | .unknownOpcode opcode pc => "unknown opcode " ++ hex 4 opcode.toNat ++ " at " ++ hex 3 pc.toNat
  | .stackOverflow pc =>
    "stack overflow: call at " ++ hex 3 pc.toNat ++ " nests deeper than the stack allows"
  | .stackUnderflow pc =>
    "stack underflow: return at " ++ hex 3 pc.toNat ++ " with an empty call stack"
  | .romTooLarge size maxSize =>
    "ROM is too large (" ++ decimal size ++ " bytes), max size is " ++ decimal maxSize ++ " bytes"
  | .invalidSpeed => "speed must be at least one step per timer tick"
  | .invalidKey key => "key " ++ hex 1 key.toNat ++ " is outside the 16-key keypad"

/-- The name of the cause. -/
def name : Error → String
  | .unknownOpcode .. => "UnknownOpcode"
  | .stackOverflow _ => "StackOverflow"
  | .stackUnderflow _ => "StackUnderflow"
  | .romTooLarge .. => "RomTooLarge"
  | .invalidSpeed => "InvalidSpeed"
  | .invalidKey _ => "InvalidKey"

/-- A field of a record: its name and its decimal value. -/
def field (label : String) (value : Nat) : String := label ++ ": " ++ decimal value

/-- The cause with its fields, named where their meaning is not plain. -/
def record (e : Error) : String :=
  let named (fields : List String) : String :=
    e.name ++ " \x7b " ++ String.intercalate ", " fields ++ " \x7d"
  match e with
  | .unknownOpcode opcode pc => named [field "opcode" opcode.toNat, field "pc" pc.toNat]
  | .stackOverflow pc => named [field "pc" pc.toNat]
  | .stackUnderflow pc => named [field "pc" pc.toNat]
  | .romTooLarge size maxSize => named [field "size" size, field "max_size" maxSize]
  | .invalidSpeed => e.name
  | .invalidKey key => e.name ++ "(" ++ decimal key.toNat ++ ")"

end Error

end Chip8
