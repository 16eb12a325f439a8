import Chip8.Error

/-! # The keypad

    Sixteen keys, up or down, and at most one register that waits for a key. The first valid press
    after a wait ends it, and names the register that should get the key. A key above 15 is refused
    and changes nothing. -/

namespace Chip8

/-- The keys, and the register that waits for one. -/
structure Keypad where
  pressed : Vector Bool 16
  awaited : Option UInt8
  deriving DecidableEq

namespace Keypad

/-- Number of keys. -/
def size : Nat := 16

/-- All keys up, nothing waiting. -/
def empty : Keypad := ⟨Vector.replicate 16 false, none⟩

/-- Whether a key is down; a key that does not exist never is. -/
def isDown (k : Keypad) (key : UInt8) : Bool := k.pressed[key.toNat]?.getD false

/-- Whether a register waits for a key. -/
def isWaiting (k : Keypad) : Bool := k.awaited.isSome

/-- Waits for the next press, for register `x`. -/
def await (k : Keypad) (x : UInt8) : Keypad := { k with awaited := some x }

/-- Presses a key. Also gives the register that waited, which no longer does. -/
def press (k : Keypad) (key : UInt8) : Except Error (Option UInt8 × Keypad) :=
  if h : key.toNat < 16 then .ok (k.awaited, ⟨k.pressed.set key.toNat true, none⟩)
  else .error (.invalidKey key)

/-- Releases a key. -/
def release (k : Keypad) (key : UInt8) : Except Error Keypad :=
  if h : key.toNat < 16 then .ok { k with pressed := k.pressed.set key.toNat false }
  else .error (.invalidKey key)

/-- The keys that are down, ascending. -/
def down (k : Keypad) : List Nat := (List.range size).filter fun key => k.pressed[key]?.getD false

/-! ### What pressing and releasing do -/

theorem isDown_press {k l : Keypad} {key : UInt8} {r : Option UInt8}
    (h : k.press key = .ok (r, l)) (other : UInt8) :
    l.isDown other = (key == other || k.isDown other) := by
  unfold press at h
  split at h
  · cases h
    simp only [isDown, Vector.getElem?_set]
    by_cases e : key = other <;> simp [e, UInt8.toNat_inj]
  · cases h

theorem isDown_release {k l : Keypad} {key : UInt8} (h : k.release key = .ok l) (other : UInt8) :
    l.isDown other = (key != other && k.isDown other) := by
  unfold release at h
  split at h
  · cases h
    simp only [isDown, Vector.getElem?_set]
    by_cases e : key = other <;> simp [e, UInt8.toNat_inj]
  · cases h

theorem isDown_of_le (k : Keypad) {key : UInt8} (h : 16 ≤ key.toNat) : k.isDown key = false := by
  rw [isDown, Vector.getElem?_eq_none h]
  rfl

theorem isDown_empty (key : UInt8) : empty.isDown key = false := by
  by_cases hkey : key.toNat < 16 <;> simp [isDown, empty, hkey]

end Keypad

end Chip8
