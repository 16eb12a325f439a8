import Chip8.Machine.Keys
import Chip8.Machine.Step

/-! # Operations

    What can be done to a machine from outside, as data, and histories of it. A history stops at a
    fault, after which there is no machine to go on with; a failed operation does not stop it. -/

namespace Chip8

/-- Something done to a machine. -/
inductive Operation where
  | step
  | execute (i : Instruction)
  | executeAll (is : List Instruction)
  | press (key : UInt8)
  | release (key : UInt8)
  | load (rom : Array UInt8)
  deriving DecidableEq, Repr

namespace Machine

/-- Does one operation. -/
def perform (m : Machine) : Operation → Outcome
  | .step => m.step
  | .execute i => m.execute i
  | .executeAll is => m.executeAll is
  | .press key => m.press key
  | .release key => m.release key
  | .load rom => m.load rom

/-- The machine after operations. -/
def after (m : Machine) (ops : List Operation) : Machine :=
  ops.foldl (fun m op => (m.perform op).machine) m

/-- The outcomes of operations, each done to the machine that the one before left. -/
def history (m : Machine) : List Operation → List Outcome
  | [] => []
  | op :: ops =>
    let o := m.perform op
    match o.verdict with
    | .fault => [o]
    | .done | .failed _ => o :: o.machine.history ops

@[simp] theorem after_nil (m : Machine) : m.after [] = m := rfl

@[simp] theorem after_cons (m : Machine) (op : Operation) (ops : List Operation) :
    m.after (op :: ops) = (m.perform op).machine.after ops := rfl

theorem after_append (m : Machine) (ops rest : List Operation) :
    m.after (ops ++ rest) = (m.after ops).after rest :=
  List.foldl_append

end Machine

end Chip8
