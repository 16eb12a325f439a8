import Chip8.Machine.Execute

/-! # Steps

    A step fetches the word at the program counter, moves the counter past it and runs the
    instruction; then it counts, and lets the timers tick if the count has reached a multiple of the
    speed. While the machine waits for a key a step does nothing. When the instruction fails, the
    counter moves back.

    Main notion: `runFor`, which takes steps until enough of them succeeded, one failed or the
    machine waits. -/

namespace Chip8.Machine

/-- A timer after a tick: one less, and never below zero. -/
def countDown (t : UInt8) : UInt8 := if t = 0 then 0 else t - 1

/-- Lets both timers tick. The sound timer beeps when it reaches zero. -/
def tick (m : Machine) : Machine × List Event :=
  ({ m with delay := countDown m.delay, sound := countDown m.sound },
    if m.sound = 1 then [.note .soundRanOut, .beep] else [])

/-- Counts a step, and lets the timers tick every `speed` steps. -/
def count (m : Machine) : Machine × List Event :=
  let counted := { m with steps := m.steps + 1 }
  if counted.steps % m.settings.speed.toUInt64 = 0 then counted.tick else (counted, [])

/-- Takes a step. -/
def step (m : Machine) : Outcome :=
  if m.isWaiting then ⟨.done, m, []⟩
  else match m.nextInstruction? with
    | none =>
      let e := .unknownOpcode m.fetch.word m.pc
      ⟨.failed e, m, [.note (.stopped e)]⟩
    | some i =>
      let trace : Event := .note (.executing m.pc i)
      match { m with pc := m.pc + 2 }.effect m.pc i with
      | .error (.error e left) =>
        ⟨.failed e, { left with pc := m.pc }, [trace, .note (.stopped e)]⟩
      | .error .fault => ⟨.fault, m, [trace]⟩
      | .ok after =>
        if m.settings.speed = 0 then ⟨.fault, after, trace :: reports i⟩
        else
          let (counted, events) := after.count
          ⟨.done, counted, trace :: reports i ++ events⟩

/-! ### Many steps -/

/-- The end of a run: how many steps succeeded, how it ended, and what was observed. -/
structure Run (σ : Type) where
  ran : Nat
  verdict : Verdict
  machine : Machine
  seen : σ

/-- Takes steps from `ran` on while there are `n` left, none failed and the machine does not wait.
    The events of every step are passed to `observe`. -/
def runFrom {σ : Type} (observe : σ → List Event → σ) (ran : Nat) (seen : σ) (m : Machine) :
    Nat → Run σ
  | 0 => ⟨ran, .done, m, seen⟩
  | n + 1 =>
    if m.isWaiting then ⟨ran, .done, m, seen⟩
    else match m.step with
      | ⟨.done, after, events⟩ => runFrom observe (ran + 1) (observe seen events) after n
      | ⟨verdict, after, events⟩ => ⟨ran, verdict, after, observe seen events⟩

/-- Takes up to `n` steps. -/
def runFor {σ : Type} (observe : σ → List Event → σ) (seen : σ) (m : Machine) (n : Nat) : Run σ :=
  runFrom observe 0 seen m n

end Chip8.Machine
