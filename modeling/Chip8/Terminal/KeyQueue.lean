import Chip8.Terminal.Key

/-! # The key queue

    Keys that have been typed and not yet looked at, oldest first. Whoever listens to the terminal
    pushes keys, and whoever steps the machine takes all that are there. -/

namespace Chip8.Terminal

/-- Keys waiting to be taken. -/
structure KeyQueue where
  waiting : Array Key
  deriving DecidableEq

namespace KeyQueue

/-- No key waits. -/
def empty : KeyQueue := ⟨#[]⟩

/-- Adds a key behind the others. -/
def push (q : KeyQueue) (key : Key) : KeyQueue := ⟨q.waiting.push key⟩

/-- Takes all keys, oldest first. -/
def takeAll (q : KeyQueue) : List Key × KeyQueue := (q.waiting.toList, empty)

theorem toList_waiting_push (q : KeyQueue) (key : Key) :
    (q.push key).waiting.toList = q.waiting.toList ++ [key] := by
  simp [push]

end KeyQueue

end Chip8.Terminal
