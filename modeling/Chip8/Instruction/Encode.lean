import Chip8.Opcode
import Chip8.Instruction.Basic

/-! # Encoding

    The word of an instruction, written digit by digit: the family, then the operands at their
    places. An operand counts as many digits as its place holds, so an instruction has a word of its
    own exactly when its registers are single digits, its addresses have three digits and the height
    of a sprite has one. The shifts ignore a second register; it is written as zero. -/

namespace Chip8.Instruction

/-- The word with digits `high`, `x` and the low byte `low`. -/
def wordXB (high : Nat) (x low : UInt8) : UInt16 :=
  UInt16.ofNat (0x1000 * high + 0x100 * x.toNat + low.toNat)

/-- The word with the digits `high`, `x`, `y` and `low`. -/
def wordXYN (high : Nat) (x y : UInt8) (low : Nat) : UInt16 :=
  UInt16.ofNat (0x1000 * high + 0x100 * x.toNat + 0x10 * y.toNat + low)

/-- The word with digit `high` in front of a three-digit address. -/
def wordAddr (high : Nat) (target : UInt16) : UInt16 := UInt16.ofNat (0x1000 * high + target.toNat)

/-- The word of an instruction. -/
def encode : Instruction → UInt16
  | .clearScreen => 0x00E0
  | .ret => 0x00EE
  | .jump a => wordAddr 0x1 a
  | .call a => wordAddr 0x2 a
  | .skipEqConst x n => wordXB 0x3 x n
  | .skipNeConst x n => wordXB 0x4 x n
  | .skipEq x y => wordXYN 0x5 x y 0x0
  | .setConst x n => wordXB 0x6 x n
  | .addConst x n => wordXB 0x7 x n
  | .move x y => wordXYN 0x8 x y 0x0
  | .or x y => wordXYN 0x8 x y 0x1
  | .and x y => wordXYN 0x8 x y 0x2
  | .xor x y => wordXYN 0x8 x y 0x3
  | .add x y => wordXYN 0x8 x y 0x4
  | .sub x y => wordXYN 0x8 x y 0x5
  | .shiftRight x => wordXYN 0x8 x 0 0x6
  | .subFrom x y => wordXYN 0x8 x y 0x7
  | .shiftLeft x => wordXYN 0x8 x 0 0xE
  | .skipNe x y => wordXYN 0x9 x y 0x0
  | .setIndex a => wordAddr 0xA a
  | .jumpIndexed a => wordAddr 0xB a
  | .random x n => wordXB 0xC x n
  | .draw x y n => wordXYN 0xD x y n.toNat
  | .skipKeyDown x => wordXB 0xE x 0x9E
  | .skipKeyUp x => wordXB 0xE x 0xA1
  | .readDelay x => wordXB 0xF x 0x07
  | .awaitKey x => wordXB 0xF x 0x0A
  | .setDelay x => wordXB 0xF x 0x15
  | .setSound x => wordXB 0xF x 0x18
  | .addIndex x => wordXB 0xF x 0x1E
  | .glyph x => wordXB 0xF x 0x29
  | .decimal x => wordXB 0xF x 0x33
  | .store x => wordXB 0xF x 0x55
  | .load x => wordXB 0xF x 0x65

end Chip8.Instruction
