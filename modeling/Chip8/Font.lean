/-! # The font

    Sixteen glyphs of five rows each, one for every hexadecimal digit. They lie at the bottom of
    memory, digit `d` at address `5 d`. -/

namespace Chip8.Font

/-- Bytes per glyph. -/
def glyphSize : Nat := 5

/-- The rows of all glyphs, from `0` to `F`. -/
def bytes : Array UInt8 := #[
  0xF0, 0x90, 0x90, 0x90, 0xF0,
  0x20, 0x60, 0x20, 0x20, 0x70,
  0xF0, 0x10, 0xF0, 0x80, 0xF0,
  0xF0, 0x10, 0xF0, 0x10, 0xF0,
  0x90, 0x90, 0xF0, 0x10, 0x10,
  0xF0, 0x80, 0xF0, 0x10, 0xF0,
  0xF0, 0x80, 0xF0, 0x90, 0xF0,
  0xF0, 0x10, 0x20, 0x40, 0x40,
  0xF0, 0x90, 0xF0, 0x90, 0xF0,
  0xF0, 0x90, 0xF0, 0x10, 0xF0,
  0xF0, 0x90, 0xF0, 0x90, 0x90,
  0xE0, 0x90, 0xE0, 0x90, 0xE0,
  0xF0, 0x80, 0x80, 0x80, 0xF0,
  0xE0, 0x90, 0x90, 0x90, 0xE0,
  0xF0, 0x80, 0xF0, 0x80, 0xF0,
  0xF0, 0x80, 0xF0, 0x80, 0x80]

/-- The address of the glyph of a digit. A value above 15 points past the font. -/
def address (digit : UInt8) : UInt16 := UInt16.ofNat glyphSize * digit.toUInt16

end Chip8.Font
