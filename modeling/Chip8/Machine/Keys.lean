import Chip8.Machine.Basic

/-! # Key events

    Keys are pressed and released from outside, between steps. The first press after an instruction
    asked for a key goes to the register that waits, and lets the machine go on. -/

namespace Chip8.Machine

/-- Presses a key. A register that waits for it but does not exist is a fault. -/
def press (m : Machine) (key : UInt8) : Outcome :=
  match m.keypad.press key with
  | .error e => ⟨.failed e, m, [.note (.pressIgnored e)]⟩
  | .ok (none, keypad) => ⟨.done, { m with keypad }, [.note (.pressed key)]⟩
  | .ok (some x, keypad) =>
    match m.registers.set? x key with
    | some registers => ⟨.done, { m with keypad, registers }, [.note (.resumed key x)]⟩
    | none => ⟨.fault, m, []⟩

/-- Releases a key. -/
def release (m : Machine) (key : UInt8) : Outcome :=
  match m.keypad.release key with
  | .error e => ⟨.failed e, m, [.note (.releaseIgnored e)]⟩
  | .ok keypad => ⟨.done, { m with keypad }, [.note (.released key)]⟩

end Chip8.Machine
