/-! # Registers

    Sixteen data registers of one byte, `V0` to `VF`. An instruction names a register by a whole
    byte, so access by number may fail. `VF` is also where arithmetic and drawing leave their
    flag. -/

namespace Chip8

/-- The data registers. -/
structure Registers where
  values : Vector UInt8 16
  deriving DecidableEq

namespace Registers

/-- Number of registers. -/
def size : Nat := 16

/-- All registers zero. -/
def zero : Registers := ⟨Vector.replicate 16 0⟩

/-- The value of register `x`, if there is one. -/
def get? (r : Registers) (x : UInt8) : Option UInt8 := r.values[x.toNat]?

/-- Sets register `x`, if there is one. -/
def set? (r : Registers) (x v : UInt8) : Option Registers :=
  if h : x.toNat < 16 then some ⟨r.values.set x.toNat v⟩ else none

/-- The value of the register that the low digit of `x` names. -/
def getLow (r : Registers) (x : UInt8) : UInt8 := r.values[x.toNat % 16]

/-- Sets the register that the low digit of `x` names. -/
def setLow (r : Registers) (x v : UInt8) : Registers := ⟨r.values.set (x.toNat % 16) v⟩

/-- Sets `VF` to one or zero. -/
def setFlag (r : Registers) (on : Bool) : Registers := ⟨r.values.set 15 (if on then 1 else 0)⟩

/-- The values of `V0` to `Vx`, if there is a register `x`. -/
def upTo? (r : Registers) (x : UInt8) : Option (List UInt8) :=
  if x.toNat < 16 then some (r.values.toList.take (x.toNat + 1)) else none

/-- Overwrites the registers from `V0` upward, if there are enough of them. -/
def overwrite? (r : Registers) (bytes : List UInt8) : Option Registers :=
  if bytes.length ≤ 16 then
    some ⟨Vector.ofFn fun i => bytes[i.val]?.getD (r.values.get i)⟩
  else none

/-! ### Access -/

theorem get?_of_lt (r : Registers) {x : UInt8} (h : x.toNat < 16) :
    r.get? x = some r.values[x.toNat] := by
  simp [get?, h]

theorem get?_eq_getLow (r : Registers) {x : UInt8} (h : x.toNat < 16) :
    r.get? x = some (r.getLow x) := by
  simp [get?_of_lt r h, getLow, Nat.mod_eq_of_lt h]

theorem set?_eq_setLow (r : Registers) {x : UInt8} (v : UInt8) (h : x.toNat < 16) :
    r.set? x v = some (r.setLow x v) := by
  simp [set?, setLow, h, Nat.mod_eq_of_lt h]

theorem get?_eq_none_iff (r : Registers) (x : UInt8) : r.get? x = none ↔ 16 ≤ x.toNat := by
  simp [get?]

theorem set?_eq_none_iff (r : Registers) (x v : UInt8) : r.set? x v = none ↔ 16 ≤ x.toNat := by
  simp [set?]

theorem get?_set? {r s : Registers} {x v : UInt8} (h : r.set? x v = some s) (y : UInt8) :
    s.get? y = if x = y then some v else r.get? y := by
  unfold set? at h
  split at h
  · cases h
    simp only [get?, Vector.getElem?_set, UInt8.toNat_inj]
  · cases h

end Registers

end Chip8
