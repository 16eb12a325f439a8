import Chip8.CallStack
import Chip8.Settings
import Chip8.Font
import Chip8.Instruction.Decode
import Chip8.Keypad
import Chip8.Memory
import Chip8.Note
import Chip8.Random.Generator
import Chip8.Registers
import Chip8.Screen

/-! # The machine

    The state of a CHIP-8 machine: memory, registers, call stack, timers, screen and keypad, with
    its settings, the number of steps taken and the source of its random bytes. It has no clock and
    makes no sound: whoever drives it calls `step` at some rate, passes on key events, and listens
    to the events that every operation reports.

    An operation ends in one of three ways. It is done, or it failed for a stated reason and the
    machine can be used on, or it met an access outside a table, after which there is no state to go
    on with. The last is called a fault. -/

namespace Chip8

/-- The state of a machine. -/
structure Machine where
  settings : Settings
  memory : Memory
  registers : Registers
  /-- The index register `I`, an address. -/
  index : UInt16
  /-- The address of the next instruction. -/
  pc : UInt16
  stack : CallStack
  delay : UInt8
  sound : UInt8
  screen : Screen
  keypad : Keypad
  /-- Successful steps so far. -/
  steps : UInt64
  generator : Generator
  deriving DecidableEq

/-- How an operation ended. -/
inductive Verdict where
  | done
  | failed (e : Error)
  | fault
  deriving DecidableEq, Repr

/-- The end of an operation, the machine after it, and the events in their order. -/
structure Outcome where
  verdict : Verdict
  machine : Machine
  events : List Event
  deriving DecidableEq

namespace Machine

/-- A machine with the font at the bottom of memory and no program. Its random bytes come from the
    seed in the settings or, without one, from the key `entropy`. -/
def blank (settings : Settings) (entropy : ChaCha.Key) : Machine where
  settings := settings
  memory := Memory.ofBytes Font.bytes
  registers := Registers.zero
  index := 0
  pc := UInt16.ofNat Memory.programStart
  stack := CallStack.empty
  delay := 0
  sound := 0
  screen := Screen.blank
  keypad := Keypad.empty
  steps := 0
  generator := match settings.seed with
    | some seed => Generator.ofSeed seed
    | none => Generator.ofKey entropy

/-- Replaces the program and starts it. Registers, timers, screen and keys stay as they are. A
    program that does not fit is refused. -/
def load (m : Machine) (rom : Array UInt8) : Outcome :=
  if Memory.maxRom < rom.size then ⟨.failed (.romTooLarge rom.size Memory.maxRom), m, []⟩
  else
    ⟨.done,
      { m with
        memory := m.memory.withProgram rom
        pc := UInt16.ofNat Memory.programStart },
      [.note (.romLoaded rom.size)]⟩

/-- Builds a machine with a program, and tells what there is to note. A speed of zero is refused
    before a program that does not fit. -/
def new (rom : Array UInt8) (settings : Settings) (entropy : ChaCha.Key) :
    Except Error (Machine × List Event) :=
  if settings.speed = 0 then .error .invalidSpeed
  else match (blank settings entropy).load rom with
    | ⟨.failed e, _, _⟩ => .error e
    | ⟨_, m, events⟩ => .ok (m, events)

/-! ### Looking at it -/

/-- The value of the register that the low digit of `x` names. -/
def register (m : Machine) (x : UInt8) : UInt8 := m.registers.getLow x

/-- Whether a key is down. -/
def isKeyDown (m : Machine) (key : UInt8) : Bool := m.keypad.isDown key

/-- Whether the machine waits for a key. -/
def isWaiting (m : Machine) : Bool := m.keypad.isWaiting

/-- The word at the program counter. -/
def fetch (m : Machine) : Opcode :=
  Opcode.ofBytes (m.memory.read m.pc.toNat) (m.memory.read (m.pc.toNat + 1))

/-- The instruction at the program counter, if there is one. -/
def nextInstruction? (m : Machine) : Option Instruction := Instruction.decode? m.fetch

end Machine

end Chip8
