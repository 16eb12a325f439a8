import Chip8.CommandLine.Options
import Chip8.Machine.Step

/-! # The headless program

    Runs a program without screen or keyboard, up to a number of steps or until it waits for a key,
    and then shows the screen once as text. If a step fails there is nothing to show. -/

namespace Chip8

/-- Why a program ended without success. The arguments are checked first, then the file is read, and
    then the machine is built. -/
inductive Failure where
  | usage
  | unreadable
  | machine (e : Error)
  | fault
  deriving DecidableEq, Repr

/-- What is said about a failure. The words for arguments and for files are stand-ins: the real ones
    belong to the parser of the arguments and to the system. -/
def Failure.message : Failure → String
  | .usage =>
    "usage: chip8 [-w] [-s SPEED] [-n STEPS] [--seed SEED] [--truncated-jump] PROGRAM"
  | .unreadable => "the program cannot be read"
  | .machine e => e.record
  | .fault => "access out of bounds"

namespace Headless

open CommandLine (HeadlessOptions)

/-- Runs a program that has been read. -/
def run (o : HeadlessOptions) (rom : Array UInt8) (entropy : ChaCha.Key) : Except Failure String :=
  match Machine.new rom o.settings entropy with
  | .error e => .error (.machine e)
  | .ok (m, _) =>
    let end_ := m.runFor (fun _ _ => ()) () o.steps
    match end_.verdict with
    | .done => .ok end_.machine.screen.text
    | .failed e => .error (.machine e)
    | .fault => .error .fault

/-- Runs the program that the arguments name. `readFile` gives nothing for a file that cannot be
    read. -/
def launch {m : Type → Type} [Monad m] (readFile : String → m (Option (Array UInt8)))
    (entropy : ChaCha.Key) (args : List String) : m (Except Failure String) :=
  match HeadlessOptions.read? args with
  | none => return .error .usage
  | some o => do
    match ← readFile o.path with
    | none => return .error .unreadable
    | some rom => return run o rom entropy

/-- What the program leaves behind: its exit status, and what it wrote to standard output and to
    standard error. -/
structure Report where
  status : UInt32
  output : String
  complaint : String
  deriving DecidableEq, Repr

/-- Tells how a run of the program ended. -/
def report : Except Failure String → Report
  | .ok text => ⟨0, text, ""⟩
  | .error f => ⟨1, "", "Error: " ++ f.message ++ "\n"⟩

end Headless

end Chip8
