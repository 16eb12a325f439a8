/-! # Settings

    What can be set about a machine. Settings are fixed when the machine is built. -/

namespace Chip8

/-- How the indexed jump `BNNN` makes its target from `NNN + V0`. -/
inductive JumpMode where
  | full       -- the whole sum
  | truncated  -- its low byte, as some early interpreters did
  deriving DecidableEq, Repr

/-- The settings of a machine. -/
structure Settings where
  /-- Sprites wrap around the screen edges instead of being clipped there. -/
  wraps : Bool := false
  /-- Steps per timer tick; at least one. -/
  speed : UInt32 := 8
  jumps : JumpMode := .full
  /-- Seed of the random bytes; without one they come from entropy. -/
  seed : Option UInt64 := none
  deriving DecidableEq, Repr

end Chip8
