import Chip8.Machine.Keys
import Chip8.Machine.Step
import Chip8.Speaker
import Chip8.Terminal.Canvas
import Chip8.Terminal.KeyHolds
import Chip8.Terminal.Key

/-! # The interactive session

    A session is a machine at a terminal. It goes on in turns. A turn takes the keys that were typed
    since the last one, presses those that were not held, and releases those that have been held
    long enough; then the machine takes a step, the canvas is brought up to date, and the bell is
    rung if the step beeped. The key `q` ends the session at once: keys after it are not looked at,
    and no step follows. A step that fails ends it too, and nothing more is drawn. Last, a session
    ends when its terminal does not take what is written: the bell is not rung for a drawing that
    failed, and what was not drawn whole does not count as drawn.

    Time is an argument of a turn, and so is the link to the terminal, which may fail at any turn.
    What a session writes depends on these and on the keys only. -/

namespace Chip8.Terminal

/-- What becomes of writes that are sent: the terminal takes all of them, or fails after the first
    `n`. -/
abbrev Link := List Write → Option Nat

namespace Link

/-- The terminal takes whatever is sent. -/
def Works (link : Link) : Prop := ∀ ws, link ws = none

/-- A terminal that takes whatever is sent. -/
def working : Link := fun _ => none

/-- Sends writes. Gives those that the terminal took, and whether it took all of them; where there
    are none, nothing is sent. -/
def send (link : Link) (ws : List Write) : List Write × Bool :=
  if ws = [] then ([], true)
  else match link ws with
    | none => (ws, true)
    | some n => (ws.take n, false)

/-- A terminal that works takes all, and any other takes at least the first writes. -/
theorem send_cases (link : Link) (ws : List Write) :
    link.send ws = (ws, true) ∨
      ¬ link.Works ∧ ∃ sent, sent <+: ws ∧ link.send ws = (sent, false) := by
  rw [send]
  split
  · rename_i hnil
    exact Or.inl (by rw [hnil])
  · split
    · exact Or.inl rfl
    · rename_i n hfails
      refine Or.inr ⟨fun hworks => ?_, ws.take n, List.take_prefix n ws, rfl⟩
      cases (hworks ws).symm.trans hfails

end Link

/-- Why a session ended: `q` was typed, a call of the machine failed, or the terminal did. -/
inductive Ending where
  | quit
  | failed (e : Error)
  | fault
  | unwritten
  deriving DecidableEq, Repr

/-- A machine, the keys that are held, what is drawn, and the channel that beeps go to. -/
structure Session where
  machine : Machine
  held : KeyHolds
  canvas : Canvas
  speaker : Speaker
  deriving DecidableEq

namespace Session

/-- How long a key is held after its last press. Times are counted in milliseconds here, but any
    unit will do: another one, however fine, gives another number and leaves all else as it is. -/
def holdTime : Nat := 250

/-- A session that begins with a machine. -/
def start (machine : Machine) : Session :=
  ⟨machine, KeyHolds.empty holdTime, Canvas.blank, .channel 0⟩

/-- The session after an operation of its machine, and how that ended the session, if it did. -/
def after (s : Session) (o : Outcome) : Session × Option Ending :=
  match o.verdict with
  | .done => ({ s with machine := o.machine }, none)
  | .failed e => ({ s with machine := o.machine }, some (.failed e))
  | .fault => (s, some .fault)

/-- Takes one typed key. -/
def takeKey (s : Session) (now : Int) (key : Key) : Session × Option Ending :=
  if key = Key.quit then (s, some .quit)
  else match key.keypad? with
    | none => (s, none)
    | some k =>
      match s.held.press k now with
      | (true, held) => { s with held }.after (s.machine.press k)
      | (false, held) => ({ s with held }, none)

/-- Takes typed keys in order, up to one that ends the session. -/
def takeKeys (s : Session) (now : Int) : List Key → Session × Option Ending
  | [] => (s, none)
  | key :: keys =>
    match s.takeKey now key with
    | (s, none) => s.takeKeys now keys
    | ended => ended

/-- Releases keys in order. -/
def releaseKeys (s : Session) : List UInt8 → Session × Option Ending
  | [] => (s, none)
  | k :: ks =>
    match s.after (s.machine.release k) with
    | (s, none) => s.releaseKeys ks
    | ended => ended

/-- The input part of a turn. -/
def input (s : Session) (now : Int) (keys : List Key) : Session × Option Ending :=
  match s.takeKeys now keys with
  | (s, none) =>
    let (due, held) := s.held.expire now
    { s with held }.releaseKeys due
  | ended => ended

/-- The end of a turn: what was written, the session, and how it ended, if it did. -/
structure Turn where
  writes : List Write
  session : Session
  ending : Option Ending

/-- Draws the screen of the machine, and then rings the bell if a beep has arrived. -/
def output (s : Session) (link : Link) : Turn :=
  let (pixels, canvas) := s.canvas.redraw s.machine.screen
  match link.send pixels with
  | (drawn, false) => ⟨drawn, s, some .unwritten⟩
  | (drawn, true) =>
    let (beeps, speaker) := s.speaker.receive
    let bell := if 0 < beeps.getD 0 then [.bell] else []
    match link.send bell with
    | (rung, false) => ⟨drawn ++ rung, { s with canvas, speaker }, some .unwritten⟩
    | (rung, true) => ⟨drawn ++ rung, { s with canvas, speaker }, none⟩

/-- Takes a turn. -/
def turn (s : Session) (now : Int) (keys : List Key) (link : Link) : Turn :=
  match s.input now keys with
  | (s, some ending) => ⟨[], s, some ending⟩
  | (s, none) =>
    let o := s.machine.step
    match s.after o with
    | (s, some ending) => ⟨[], s, some ending⟩
    | (s, none) => { s with speaker := (s.speaker.hear o.events).1 }.output link

end Session

end Chip8.Terminal
