import Chip8.Note

/-! # Speakers

    Who hears the beeps of a machine: nobody, somebody who counts them, or the far end of a channel
    that takes the waiting messages whenever it likes. When the far end has gone, a beep is dropped
    and leaves a note. -/

namespace Chip8

/-- A receiver of beeps. -/
inductive Speaker where
  | mute
  | counter (heard : Nat)
  | channel (waiting : Nat)
  | closed
  deriving DecidableEq, Repr

namespace Speaker

/-- One beep, and what there is to note about it. -/
def beep : Speaker → Speaker × List Note
  | .mute => (.mute, [])
  | .counter n => (.counter (n + 1), [])
  | .channel n => (.channel (n + 1), [])
  | .closed => (.closed, [.beepDropped])

/-- Listens to events in order: takes the beeps, and passes on the notes. -/
def hear (s : Speaker) : List Event → Speaker × List Note
  | [] => (s, [])
  | .note n :: es =>
    let (s, ns) := s.hear es
    (s, n :: ns)
  | .beep :: es =>
    let (s, dropped) := s.beep
    let (s, ns) := s.hear es
    (s, dropped ++ ns)

/-- Beeps heard and not taken. -/
def count : Speaker → Nat
  | .mute | .closed => 0
  | .counter n | .channel n => n

/-- Takes the messages that wait in the channel, while its far end is there. -/
def receive : Speaker → Option Nat × Speaker
  | .channel n => (some n, .channel 0)
  | s => (none, s)

/-- The far end goes. -/
def close : Speaker → Speaker
  | .channel _ => .closed
  | s => s

end Speaker

end Chip8
