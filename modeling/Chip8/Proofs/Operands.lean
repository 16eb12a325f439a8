import Chip8.Instruction.Decode
import Chip8.Instruction.Text

/-! # Operands in range

    An instruction built by hand may name any register and any address. A decoded one names
    registers that exist and addresses of three digits, since its operands are digits of a word. -/

namespace Chip8

/-- A register that exists, or an address of three digits. Every constant is in range. -/
def Operand.InRange : Operand → Prop
  | .reg x => x.toNat < 16
  | .const _ => True
  | .addr a => a.toNat < 4096

namespace Opcode

theorem x_lt (o : Opcode) : o.x.toNat < 16 := by
  rw [toNat_x]
  exact Nat.mod_lt _ (by decide)

theorem y_lt (o : Opcode) : o.y.toNat < 16 := by
  rw [toNat_y]
  exact Nat.mod_lt _ (by decide)

theorem address_lt (o : Opcode) : o.address.toNat < 4096 := by
  rw [toNat_address]
  exact Nat.mod_lt _ (by decide)

end Opcode

namespace Instruction

/-- All operands are in range. -/
def InRange (i : Instruction) : Prop := ∀ o ∈ i.operands, o.InRange

instance : DecidablePred Operand.InRange
  | .reg x => inferInstanceAs (Decidable (x.toNat < 16))
  | .const _ => inferInstanceAs (Decidable True)
  | .addr a => inferInstanceAs (Decidable (a.toNat < 4096))

instance : DecidablePred InRange := fun i =>
  inferInstanceAs (Decidable (∀ o ∈ i.operands, o.InRange))

/-! ### Decoded instructions -/

theorem inRange_decodeSystem? {word : UInt16} {i : Instruction}
    (h : decodeSystem? word = some i) : i.InRange := by
  unfold decodeSystem? at h
  split at h <;> cases h <;> simp [InRange, operands]

theorem inRange_decodeArithmetic? {x y low : UInt8} (hx : x.toNat < 16) (hy : y.toNat < 16)
    {i : Instruction} (h : decodeArithmetic? x y low = some i) : i.InRange := by
  unfold decodeArithmetic? at h
  split at h <;> cases h <;> simp [InRange, operands, Operand.InRange, hx, hy]

theorem inRange_decodeKey? {x low : UInt8} (hx : x.toNat < 16) {i : Instruction}
    (h : decodeKey? x low = some i) : i.InRange := by
  unfold decodeKey? at h
  split at h <;> cases h <;> simp [InRange, operands, Operand.InRange, hx]

theorem inRange_decodeMisc? {x low : UInt8} (hx : x.toNat < 16) {i : Instruction}
    (h : decodeMisc? x low = some i) : i.InRange := by
  unfold decodeMisc? at h
  split at h <;> cases h <;> simp [InRange, operands, Operand.InRange, hx]

theorem inRange_of_decode? {o : Opcode} {i : Instruction} (h : decode? o = some i) :
    i.InRange := by
  have hx := o.x_lt
  have hy := o.y_lt
  have ha := o.address_lt
  unfold decode? at h
  split at h
  case h_1 => exact inRange_decodeSystem? h
  case h_9 => exact inRange_decodeArithmetic? hx hy h
  case h_15 => exact inRange_decodeKey? hx h
  case h_16 => exact inRange_decodeMisc? hx h
  -- the two families that admit a single low digit
  case h_6 | h_10 =>
    split at h <;> cases h
    simp [InRange, operands, Operand.InRange, hx, hy]
  all_goals cases h <;> simp [InRange, operands, Operand.InRange, hx, hy, ha]

end Instruction

end Chip8
