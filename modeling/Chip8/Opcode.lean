/-! # Opcodes

    A program is a row of 16-bit words, stored big-endian. A word is four hexadecimal digits, and
    the instruction formats overlay three kinds of operand on them.

        digit 3   digit 2   digit 1   digit 0
        family       x         y        low
                  └───────── address ────────┘
                            └──── lowByte ───┘ -/

namespace Chip8

/-- A raw instruction word. -/
structure Opcode where
  word : UInt16
  deriving DecidableEq, Repr

namespace Opcode

/-- The word stored as `left` and then `right`. -/
def ofBytes (left right : UInt8) : Opcode := ⟨left.toUInt16 <<< 8 ||| right.toUInt16⟩

/-- The digit that selects the instruction family. -/
def family (o : Opcode) : UInt8 := (o.word >>> 12).toUInt8

/-- The first register operand. -/
def x (o : Opcode) : UInt8 := (o.word >>> 8 &&& 0xF).toUInt8

/-- The second register operand. -/
def y (o : Opcode) : UInt8 := (o.word >>> 4 &&& 0xF).toUInt8

/-- The 4-bit constant. -/
def low (o : Opcode) : UInt8 := (o.word &&& 0xF).toUInt8

/-- The 8-bit constant. -/
def lowByte (o : Opcode) : UInt8 := (o.word &&& 0xFF).toUInt8

/-- The 12-bit address. -/
def address (o : Opcode) : UInt16 := o.word &&& 0xFFF

/-! ### The fields as digits of the word -/

theorem toNat_word_ofBytes (l r : UInt8) : (ofBytes l r).word.toNat = 256 * l.toNat + r.toNat := by
  have hl := l.toNat_lt
  have hr := r.toNat_lt
  have e : l.toNat <<< 8 % 65536 = 2 ^ 8 * l.toNat := by
    rw [Nat.shiftLeft_eq, Nat.mod_eq_of_lt] <;> omega
  simp [ofBytes, e, ← Nat.two_pow_add_eq_or_of_lt hr]

private theorem and_15 (n : Nat) : n &&& 15 = n % 16 := Nat.and_two_pow_sub_one_eq_mod n 4

private theorem and_255 (n : Nat) : n &&& 255 = n % 256 := Nat.and_two_pow_sub_one_eq_mod n 8

private theorem and_4095 (n : Nat) : n &&& 4095 = n % 4096 := Nat.and_two_pow_sub_one_eq_mod n 12

theorem toNat_family (o : Opcode) : o.family.toNat = o.word.toNat / 4096 := by
  have h := o.word.toNat_lt
  simp [family, Nat.shiftRight_eq_div_pow]
  omega

theorem toNat_x (o : Opcode) : o.x.toNat = o.word.toNat / 256 % 16 := by
  simp [x, Nat.shiftRight_eq_div_pow, and_15]

theorem toNat_y (o : Opcode) : o.y.toNat = o.word.toNat / 16 % 16 := by
  simp [y, Nat.shiftRight_eq_div_pow, and_15]

theorem toNat_low (o : Opcode) : o.low.toNat = o.word.toNat % 16 := by
  simp [low, and_15]

theorem toNat_lowByte (o : Opcode) : o.lowByte.toNat = o.word.toNat % 256 := by
  simp [lowByte, and_255]

theorem toNat_address (o : Opcode) : o.address.toNat = o.word.toNat % 4096 := by
  simp [address, and_4095]

end Opcode

end Chip8
