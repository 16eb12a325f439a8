import Chip8.Opcode
import Chip8.Instruction.Basic

/-! # Decoding

    A word is decoded by its high digit, which selects a family. Families `0`, `8`, `E` and `F` hold
    several instructions each, told apart by the whole word, the low digit or the low byte. Every
    other word is no instruction. -/

namespace Chip8.Instruction

/-- Family `0`: the two words that are instructions. -/
def decodeSystem? (word : UInt16) : Option Instruction :=
  match word with
  | 0x00E0 => some .clearScreen
  | 0x00EE => some .ret
  | _ => none

/-- Family `8`: register arithmetic, by the low digit. -/
def decodeArithmetic? (x y : UInt8) (low : UInt8) : Option Instruction :=
  match low with
  | 0x0 => some (.move x y)
  | 0x1 => some (.or x y)
  | 0x2 => some (.and x y)
  | 0x3 => some (.xor x y)
  | 0x4 => some (.add x y)
  | 0x5 => some (.sub x y)
  | 0x6 => some (.shiftRight x)
  | 0x7 => some (.subFrom x y)
  | 0xE => some (.shiftLeft x)
  | _ => none

/-- Family `E`: key skips, by the low byte. -/
def decodeKey? (x : UInt8) (low : UInt8) : Option Instruction :=
  match low with
  | 0x9E => some (.skipKeyDown x)
  | 0xA1 => some (.skipKeyUp x)
  | _ => none

/-- Family `F`: timers, index register and block transfers, by the low byte. -/
def decodeMisc? (x : UInt8) (low : UInt8) : Option Instruction :=
  match low with
  | 0x07 => some (.readDelay x)
  | 0x0A => some (.awaitKey x)
  | 0x15 => some (.setDelay x)
  | 0x18 => some (.setSound x)
  | 0x1E => some (.addIndex x)
  | 0x29 => some (.glyph x)
  | 0x33 => some (.decimal x)
  | 0x55 => some (.store x)
  | 0x65 => some (.load x)
  | _ => none

/-- The instruction that a word stands for, if it is one. -/
def decode? (o : Opcode) : Option Instruction :=
  match o.family with
  | 0x0 => decodeSystem? o.word
  | 0x1 => some (.jump o.address)
  | 0x2 => some (.call o.address)
  | 0x3 => some (.skipEqConst o.x o.lowByte)
  | 0x4 => some (.skipNeConst o.x o.lowByte)
  | 0x5 => if o.low = 0 then some (.skipEq o.x o.y) else none
  | 0x6 => some (.setConst o.x o.lowByte)
  | 0x7 => some (.addConst o.x o.lowByte)
  | 0x8 => decodeArithmetic? o.x o.y o.low
  | 0x9 => if o.low = 0 then some (.skipNe o.x o.y) else none
  | 0xA => some (.setIndex o.address)
  | 0xB => some (.jumpIndexed o.address)
  | 0xC => some (.random o.x o.lowByte)
  | 0xD => some (.draw o.x o.y o.low)
  | 0xE => decodeKey? o.x o.lowByte
  | 0xF => decodeMisc? o.x o.lowByte
  | _ => none

/-- Decodes a 16-bit word. -/
def ofWord? (word : UInt16) : Option Instruction := decode? ⟨word⟩

/-- Decodes the word stored as `left` and then `right`. -/
def ofBytes? (left right : UInt8) : Option Instruction := decode? (Opcode.ofBytes left right)

end Chip8.Instruction
