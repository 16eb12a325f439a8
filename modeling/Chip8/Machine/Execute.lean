import Chip8.Machine.Basic
import Chip8.Sprite

/-! # Executing instructions

    What each instruction does to a machine. The program counter already points past the instruction
    when it is run as a step, so skips and jumps change it and everything else leaves it alone. An
    instruction that cannot be completed stops early: with an error for `ret` and `call` at the ends
    of the stack, and with a fault for a register that does not exist. An error hands back the
    machine as it was left at that moment.

    Arithmetic writes its result first and the flag last, so `VF` holds the flag even where it is
    also the result register. Both are computed from the values before the instruction. -/

namespace Chip8

/-- Why an instruction was not completed; after an error, also the machine as it was left. -/
inductive Stop where
  | error (e : Error) (left : Machine)
  | fault
  deriving DecidableEq

namespace Machine

/-- An access to a table, which is a fault where the table has no such entry. -/
def checked {α : Type} : Option α → Except Stop α
  | some a => .ok a
  | none => .error .fault

/-- The value of register `x`. -/
def get (m : Machine) (x : UInt8) : Except Stop UInt8 := checked (m.registers.get? x)

/-- Sets register `x`. -/
def set (m : Machine) (x v : UInt8) : Except Stop Machine := do
  let registers ← checked (m.registers.set? x v)
  return { m with registers }

/-- Sets the flag register. -/
def setFlag (m : Machine) (on : Bool) : Machine :=
  { m with registers := m.registers.setFlag on }

/-- Sets register `x`, then the flag register. -/
def setWithFlag (m : Machine) (x v : UInt8) (on : Bool) : Except Stop Machine := do
  return (← m.set x v).setFlag on

/-- Skips the next instruction if `c` holds. -/
def skipIf (m : Machine) (c : Bool) : Machine := if c then { m with pc := m.pc + 2 } else m

/-- The three decimal digits of a byte. -/
def decimalDigits (v : UInt8) : List UInt8 := [v / 100, v / 10 % 10, v % 10]

/-- The target of an indexed jump. -/
def jumpTarget (mode : JumpMode) (base : UInt16) (v : UInt8) : UInt16 :=
  match mode with
  | .full => base + v.toUInt16
  | .truncated => (base + v.toUInt16) &&& 0xFF

/-- Draws the sprite of `rows` rows at `I`, its top left corner at `(x, y)`. -/
def drawSprite (m : Machine) (x y rows : UInt8) : Except Stop Machine := do
  let sprite := m.memory.slice m.index.toNat rows.toNat
  let pixels := Sprite.pixels m.settings.wraps x.toNat y.toNat sprite
  let (hit, screen) ← checked (m.screen.toggleAll? pixels)
  return { m with screen }.setFlag hit

/-- The machine after an instruction. Errors name `origin`, the address of the instruction. -/
def effect (m : Machine) (origin : UInt16) : Instruction → Except Stop Machine
  | .clearScreen => return { m with screen := Screen.blank }
  | .ret =>
    if m.stack.pointer = 0 then throw (.error (.stackUnderflow origin) m)
    else do
      let a ← checked m.stack.top?
      return { m with pc := a, stack := m.stack.drop }
  | .jump target => return { m with pc := target }
  | .call target =>
    match m.stack.push? m.pc with
    | some stack => return { m with pc := target, stack }
    | none => throw (.error (.stackOverflow origin) m)
  | .skipEqConst x n => do return m.skipIf ((← m.get x) == n)
  | .skipNeConst x n => do return m.skipIf ((← m.get x) != n)
  | .skipEq x y => do return m.skipIf ((← m.get x) == (← m.get y))
  | .skipNe x y => do return m.skipIf ((← m.get x) != (← m.get y))
  | .setConst x n => m.set x n
  | .addConst x n => do m.set x ((← m.get x) + n)
  | .move x y => do m.set x (← m.get y)
  | .or x y => do m.set x ((← m.get x) ||| (← m.get y))
  | .and x y => do m.set x ((← m.get x) &&& (← m.get y))
  | .xor x y => do m.set x ((← m.get x) ^^^ (← m.get y))
  | .add x y => do
    let a ← m.get x
    let b ← m.get y
    m.setWithFlag x (a + b) (255 < a.toNat + b.toNat)
  | .sub x y => do
    let a ← m.get x
    let b ← m.get y
    m.setWithFlag x (a - b) (b < a)
  | .subFrom x y => do
    let a ← m.get x
    let b ← m.get y
    m.setWithFlag x (b - a) (a < b)
  | .shiftRight x => do
    let a ← m.get x
    m.setWithFlag x (a >>> 1) (a &&& 1 == 1)
  | .shiftLeft x => do
    let a ← m.get x
    m.setWithFlag x (a <<< 1) (a >>> 7 == 1)
  | .setIndex target => return { m with index := target }
  | .jumpIndexed base => do
    return { m with pc := jumpTarget m.settings.jumps base (← m.get 0) }
  | .random x mask => do
    let (byte, generator) := m.generator.next
    { m with generator }.set x (byte &&& mask)
  | .draw x y rows => do m.drawSprite (← m.get x) (← m.get y) rows
  | .skipKeyDown x => do return m.skipIf (m.keypad.isDown (← m.get x))
  | .skipKeyUp x => do return m.skipIf (!m.keypad.isDown (← m.get x))
  | .readDelay x => m.set x m.delay
  | .awaitKey x => return { m with keypad := m.keypad.await x }
  | .setDelay x => do return { m with delay := ← m.get x }
  | .setSound x => do return { m with sound := ← m.get x }
  | .addIndex x => do return { m with index := m.index + (← m.get x).toUInt16 }
  | .glyph x => do return { m with index := Font.address (← m.get x) }
  | .decimal x => do
    let digits := decimalDigits (← m.get x)
    return { m with memory := m.memory.store m.index.toNat digits }
  | .store x => do
    let bytes ← checked (m.registers.upTo? x)
    return { m with memory := m.memory.store m.index.toNat bytes }
  | .load x => do
    let bytes := m.memory.slice m.index.toNat (x.toNat + 1)
    let registers ← checked (m.registers.overwrite? bytes)
    return { m with registers }

theorem get_eq (m : Machine) {x : UInt8} (h : x.toNat < 16) : m.get x = .ok (m.register x) := by
  rw [get, Registers.get?_eq_getLow _ h]
  rfl

/-- What an instruction reports when it is completed: only a wait for a key does. -/
def reports : Instruction → List Event
  | .awaitKey x => [.note (.waiting x)]
  | _ => []

/-- Executes an instruction that is not in memory: no step is counted and no timer ticks. -/
def execute (m : Machine) (i : Instruction) : Outcome :=
  match m.effect m.pc i with
  | .ok after => ⟨.done, after, reports i⟩
  | .error (.error e left) => ⟨.failed e, left, []⟩
  | .error .fault => ⟨.fault, m, []⟩

/-- Executes instructions in order, up to the first that is not completed. -/
def executeAll (m : Machine) : List Instruction → Outcome
  | [] => ⟨.done, m, []⟩
  | i :: is =>
    match m.execute i with
    | ⟨.done, after, events⟩ =>
      let rest := after.executeAll is
      { rest with events := events ++ rest.events }
    | stopped => stopped

end Machine

end Chip8
