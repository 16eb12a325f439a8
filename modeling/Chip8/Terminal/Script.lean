import Chip8.Headless
import Chip8.Terminal.Keyboard
import Chip8.Terminal.KeyQueue
import Chip8.Terminal.Session

/-! # Scripted sessions

    A session played from a script of what is typed. Between two entries of the script the machine
    gets enough turns to settle, so that what is written does not depend on how fast it runs. Text
    is typed at once, and its keys meet in one turn; a pause waits until every held key has been
    released. A script ends with a pause. The terminal takes all that is written. -/

namespace Chip8.Terminal

/-- One entry of a script. -/
inductive Entry where
  | typed (text : String)
  | pause
  deriving DecidableEq, Repr

/-- A session in play: its keyboard and keys, the time, and all that was written. -/
structure Play where
  session : Session
  keyboard : Keyboard
  queue : KeyQueue
  now : Int
  written : Array Write
  ending : Option Ending

namespace Play

/-- Turns after which the machine has settled. -/
def settleTurns : Nat := 1500

/-- A session before its first turn. -/
def start (machine : Machine) : Play where
  session := Session.start machine
  keyboard := Keyboard.idle
  queue := KeyQueue.empty
  now := 0
  written := Canvas.opening.toArray
  ending := none

/-- Takes a turn with the keys that wait. -/
def turn (p : Play) : Play :=
  let (keys, queue) := p.queue.takeAll
  let t := p.session.turn p.now keys Link.working
  { p with queue, session := t.session, written := p.written ++ t.writes, ending := t.ending }

/-- Takes turns until the session ends. -/
def turns (p : Play) : Nat → Play
  | 0 => p
  | n + 1 => if p.ending.isSome then p else p.turn.turns n

/-- Types text, or waits. -/
def enter (p : Play) : Entry → Play
  | .typed text =>
    let (keys, keyboard) := p.keyboard.type text
    { p with keyboard, queue := keys.foldl KeyQueue.push p.queue }
  | .pause => { p with now := p.now + Session.holdTime }

/-- Plays one entry. -/
def entry (p : Play) (e : Entry) : Play := (p.enter e).turns settleTurns

/-- Plays a script, and gives the terminal back. -/
def run (p : Play) (script : List Entry) : Play :=
  let ended := (script ++ [Entry.pause]).foldl entry (p.turns settleTurns)
  { ended with written := ended.written ++ Canvas.closing }

end Play

/-! ### The interactive program -/

namespace Interactive

open CommandLine (InteractiveOptions)

/-- What the interactive program wrote, and why it ended without success, if it did. -/
structure Report where
  written : List Write
  failure : Option Failure

/-- A program that ended before it took over the terminal. -/
def Report.failed (f : Failure) : Report := ⟨[], some f⟩

/-- Runs a program that has been read. -/
def run (o : InteractiveOptions) (rom : Array UInt8) (entropy : ChaCha.Key) (script : List Entry) :
    Report :=
  match Machine.new rom o.settings entropy with
  | .error e => .failed (.machine e)
  | .ok (m, _) =>
    let p := (Play.start m).run script
    ⟨p.written.toList, match p.ending with
      | some (.failed e) => some (.machine e)
      | some .fault => some .fault
      -- the link of a play works, so its writes are taken
      | some .quit | some .unwritten | none => none⟩

/-- Runs the program that the arguments name. -/
def launch {m : Type → Type} [Monad m] (readFile : String → m (Option (Array UInt8)))
    (entropy : ChaCha.Key) (script : List Entry) (args : List String) : m Report :=
  match InteractiveOptions.read? args with
  | none => return .failed .usage
  | some o => do
    match ← readFile o.path with
    | none => return .failed .unreadable
    | some rom => return run o rom entropy script

end Interactive

end Chip8.Terminal
