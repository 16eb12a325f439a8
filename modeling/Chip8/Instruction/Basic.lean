/-! # Instructions

    The instruction set, one constructor per instruction. Beside each stands its word: `NNN` is an
    address, `NN` an 8-bit and `N` a 4-bit constant, `X` and `Y` are registers. The operands are
    kept as whole bytes and words, so an instruction built by hand may name a register that does not
    exist; decoded ones never do. -/

namespace Chip8

/-- One instruction with its operands. -/
inductive Instruction where
  | clearScreen                         -- 00E0
  | ret                                 -- 00EE
  | jump (target : UInt16)              -- 1NNN
  | call (target : UInt16)              -- 2NNN
  | skipEqConst (x n : UInt8)           -- 3XNN
  | skipNeConst (x n : UInt8)           -- 4XNN
  | skipEq (x y : UInt8)                -- 5XY0
  | setConst (x n : UInt8)              -- 6XNN
  | addConst (x n : UInt8)              -- 7XNN
  | move (x y : UInt8)                  -- 8XY0
  | or (x y : UInt8)                    -- 8XY1
  | and (x y : UInt8)                   -- 8XY2
  | xor (x y : UInt8)                   -- 8XY3
  | add (x y : UInt8)                   -- 8XY4
  | sub (x y : UInt8)                   -- 8XY5
  | shiftRight (x : UInt8)              -- 8XY6
  | subFrom (x y : UInt8)               -- 8XY7
  | shiftLeft (x : UInt8)               -- 8XYE
  | skipNe (x y : UInt8)                -- 9XY0
  | setIndex (target : UInt16)          -- ANNN
  | jumpIndexed (base : UInt16)         -- BNNN
  | random (x mask : UInt8)             -- CXNN
  | draw (x y rows : UInt8)             -- DXYN
  | skipKeyDown (x : UInt8)             -- EX9E
  | skipKeyUp (x : UInt8)               -- EXA1
  | readDelay (x : UInt8)               -- FX07
  | awaitKey (x : UInt8)                -- FX0A
  | setDelay (x : UInt8)                -- FX15
  | setSound (x : UInt8)                -- FX18
  | addIndex (x : UInt8)                -- FX1E
  | glyph (x : UInt8)                   -- FX29
  | decimal (x : UInt8)                 -- FX33
  | store (x : UInt8)                   -- FX55
  | load (x : UInt8)                    -- FX65
  deriving DecidableEq, Repr

end Chip8
