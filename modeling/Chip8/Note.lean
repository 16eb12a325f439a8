import Chip8.Error
import Chip8.Instruction.Text

/-! # Notes

    What a machine reports while it works. A note says what happened; its level and its text are
    functions of it. Events are the notes and, between them, the beeps: a beep is no text but a
    request to whoever plays the sound. -/

namespace Chip8

/-- How urgent a note is. -/
inductive Level where
  | error | warn | info | debug | trace
  deriving DecidableEq, Repr

/-- The name of a level. -/
def Level.name : Level → String
  | .error => "error"
  | .warn => "warn"
  | .info => "info"
  | .debug => "debug"
  | .trace => "trace"

/-- One thing that happened. -/
inductive Note where
  | romLoaded (size : Nat)
  | executing (pc : UInt16) (i : Instruction)
  | stopped (e : Error)
  | waiting (x : UInt8)
  | soundRanOut
  | beepDropped
  | pressed (key : UInt8)
  | resumed (key x : UInt8)
  | released (key : UInt8)
  | pressIgnored (e : Error)
  | releaseIgnored (e : Error)
  deriving DecidableEq, Repr

namespace Note

open Numeral (decimal hex hexUpper)

/-- How urgent a note is. -/
def level : Note → Level
  | .stopped _ => .error
  | .pressIgnored _ | .releaseIgnored _ => .warn
  | .executing .. | .soundRanOut => .trace
  | .romLoaded _ | .waiting _ | .beepDropped | .pressed _ | .resumed .. | .released _ => .debug

/-- The text of an executed instruction: its address, and the instruction. -/
def traceText (pc : UInt16) (i : Instruction) : String := hex 3 pc.toNat ++ ": " ++ i.text

/-- The text of a note. -/
def text : Note → String
  | .romLoaded size => "Loaded " ++ decimal size ++ " byte ROM"
  | .executing pc i => traceText pc i
  | .stopped e => e.message
  | .waiting x => "Waiting for a key for V" ++ hexUpper x.toNat
  | .soundRanOut => "Sound timer ran out"
  | .beepDropped => "Sound receiver is gone, dropping trigger"
  | .pressed key => "Key " ++ hex 1 key.toNat ++ " pressed"
  | .resumed key x =>
    "Key " ++ hex 1 key.toNat ++ " pressed, resuming with V" ++ hexUpper x.toNat ++ " = "
      ++ hex 1 key.toNat
  | .released key => "Key " ++ hex 1 key.toNat ++ " released"
  | .pressIgnored e => "Ignoring key press: " ++ e.message
  | .releaseIgnored e => "Ignoring key release: " ++ e.message

end Note

/-- A note, or a request to make a sound. -/
inductive Event where
  | note (n : Note)
  | beep
  deriving DecidableEq, Repr

end Chip8
