/-! # Held keys

    A terminal reports that a key was pressed, and again while it is held, but not that it was
    released. So a key counts as held until it has not been pressed for some time. Times are whole
    numbers on any clock and in any unit, as long as it is the same for all of them; a clock that
    goes backwards makes a key no older than new. -/

namespace Chip8.Terminal

/-- For every key of the keypad, when it was last pressed, while it is held. -/
structure KeyHolds where
  /-- How long a key is held after its last press, in the unit of the times. -/
  timeout : Nat
  pressedAt : Vector (Option Int) 16
  deriving DecidableEq

namespace KeyHolds

/-- No key held. -/
def empty (timeout : Nat) : KeyHolds := ⟨timeout, Vector.replicate 16 none⟩

/-- Whether a key is held. -/
def isHeld (held : KeyHolds) (key : UInt8) : Bool := held.pressedAt[key.toNat]?.join.isSome

/-- Notes a press. Also tells whether the key was not held before; a key that does not exist is
    never held, and its press tells nothing. -/
def press (held : KeyHolds) (key : UInt8) (now : Int) : Bool × KeyHolds :=
  if h : key.toNat < 16 then
    (held.pressedAt[key.toNat].isNone,
      { held with pressedAt := held.pressedAt.set key.toNat (some now) })
  else (false, held)

/-- Whether a key that was last pressed at some time is to be released. -/
def isDue (held : KeyHolds) (now : Int) : Option Int → Bool
  | some pressed => held.timeout ≤ (now - pressed).toNat
  | none => false

/-- Releases the keys that have been held long enough. Also gives them, ascending. -/
def expire (held : KeyHolds) (now : Int) : List UInt8 × KeyHolds :=
  let due := (List.finRange 16).filter fun key => held.isDue now (held.pressedAt.get key)
  (due.map fun key => UInt8.ofNat key.val,
    { held with pressedAt := held.pressedAt.map fun p => if held.isDue now p then none else p })

end KeyHolds

end Chip8.Terminal
