import Chip8.CommandLine.Arguments
import Chip8.Settings
import Chip8.Text.Numeral

/-! # Options

    The settings that a user can give, and the option sets of the two programs: the headless one,
    which takes a number of steps and a seed, and the interactive one, which takes a pace. Both take
    the path of one program. -/

namespace Chip8.CommandLine

/-- Switches for the settings of the machine that both programs take. -/
def machineSwitches : List Switch := [
  ⟨some 'w', "wrap-around", false⟩,
  ⟨some 's', "speed", true⟩,
  ⟨none, "truncated-jump", false⟩]

/-- Reads the settings that both programs take. -/
def settings? (items : List Item) : Option Settings := do
  let wraps ← flag? items "wrap-around"
  let speed ← Numeral.read? UInt32.size (← value? items "speed" "8")
  let truncated ← flag? items "truncated-jump"
  return {
    wraps
    speed := UInt32.ofNat speed
    jumps := if truncated then .truncated else .full }

/-- The options of the headless program. -/
structure HeadlessOptions where
  settings : Settings
  /-- The most steps to take. -/
  steps : Nat
  path : String

/-- Switches of the headless program. -/
def headlessSwitches : List Switch :=
  machineSwitches ++ [⟨some 'n', "steps", true⟩, ⟨none, "seed", true⟩]

/-- Reads the options of the headless program; numbers have 64 bits. -/
def HeadlessOptions.read? (args : List String) : Option HeadlessOptions := do
  let items ← split? headlessSwitches args
  let settings ← settings? items
  let steps ← Numeral.read? UInt64.size (← value? items "steps" "1000")
  let path ← operand? items
  match ← optionalValue? items "seed" with
  | none => return { settings, steps, path }
  | some text =>
    let seed ← Numeral.read? UInt64.size text
    return { settings := { settings with seed := some (UInt64.ofNat seed) }, steps, path }

/-- The options of the interactive program. -/
structure InteractiveOptions where
  settings : Settings
  /-- Steps per second. -/
  hertz : Nat
  path : String

/-- Switches of the interactive program. -/
def interactiveSwitches : List Switch := machineSwitches ++ [⟨none, "hz", true⟩]

/-- Reads the options of the interactive program. -/
def InteractiveOptions.read? (args : List String) : Option InteractiveOptions := do
  let items ← split? interactiveSwitches args
  let settings ← settings? items
  let hertz ← Numeral.read? UInt64.size (← value? items "hz" "480")
  let path ← operand? items
  return { settings, hertz, path }

end Chip8.CommandLine
