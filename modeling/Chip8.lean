import Chip8.Text.Numeral
import Chip8.Opcode
import Chip8.Instruction.Basic
import Chip8.Instruction.Decode
import Chip8.Instruction.Encode
import Chip8.Instruction.Text
import Chip8.Settings
import Chip8.Error
import Chip8.Note
import Chip8.Memory
import Chip8.Font
import Chip8.Registers
import Chip8.CallStack
import Chip8.Screen
import Chip8.Sprite
import Chip8.Keypad
import Chip8.Random.ChaCha
import Chip8.Random.Generator
import Chip8.Speaker
import Chip8.Machine.Basic
import Chip8.Machine.Execute
import Chip8.Machine.Step
import Chip8.Machine.Keys
import Chip8.Machine.Operation
import Chip8.CommandLine.Arguments
import Chip8.CommandLine.Options
import Chip8.Headless
import Chip8.Terminal.Key
import Chip8.Terminal.Keyboard
import Chip8.Terminal.KeyQueue
import Chip8.Terminal.KeyHolds
import Chip8.Terminal.Canvas
import Chip8.Terminal.Grid
import Chip8.Terminal.Session
import Chip8.Terminal.Script
import Chip8.Main
import Chip8.Proofs.Drawing
import Chip8.Proofs.Execution
import Chip8.Proofs.Reachable
import Chip8.Proofs.Calls
import Chip8.Proofs.Exact
import Chip8.Proofs.StepErrors
import Chip8.Proofs.TwelveBits
import Chip8.Proofs.Runs
import Chip8.Proofs.Timers
import Chip8.Proofs.Beeps
import Chip8.Proofs.Waiting
import Chip8.Proofs.Encoding
import Chip8.Proofs.Footprint
import Chip8.Proofs.StraightLine
import Chip8.Proofs.NonInterference
import Chip8.Proofs.Rendering
import Chip8.Proofs.Histories
import Chip8.Proofs.KeyHolds
import Chip8.Proofs.Turns
import Chip8.Proofs.Locations
import Chip8.Proofs.RandomBytes
import Chip8.Proofs.StepLimit
import Chip8.Proofs.HeldKeys
import Chip8.Proofs.Faults
import Chip8.Proofs.Flags
import Chip8.Proofs.DrawOrder
import Chip8.Proofs.Blocks
import Chip8.Proofs.Nesting
import Chip8.Proofs.KeyOrder
import Chip8.Proofs.KeypadHistory
import Chip8.Proofs.QueueHistory
import Chip8.Proofs.Loading
import Chip8.Proofs.Log
import Chip8.Proofs.Words
import Chip8.Proofs.Diagnostics
import Chip8.Proofs.Pixels
