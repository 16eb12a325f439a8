import Chip8.Text.Numeral
import Chip8.Instruction.Basic

/-! # Instructions as text

    An instruction is written as its name, followed by its operands in parentheses, each with its
    kind: `ClearScreen`, `Goto(Addr(768))`, `Draw(Reg(0), Reg(1), Const(5))`. Operands are in
    decimal. The parts are kept apart, so that the same table serves the text and the reading of an
    instruction from its name and its operands. -/

namespace Chip8

/-- An operand with its kind. -/
inductive Operand where
  | reg (x : UInt8)
  | const (n : UInt8)
  | addr (a : UInt16)
  deriving DecidableEq, Repr

namespace Operand

/-- The number without its kind. -/
def value : Operand → Nat
  | .reg x => x.toNat
  | .const n => n.toNat
  | .addr a => a.toNat

/-- The kind, as written. -/
def kind : Operand → String
  | .reg _ => "Reg"
  | .const _ => "Const"
  | .addr _ => "Addr"

/-- The kind around the decimal number. -/
def text (o : Operand) : String := o.kind ++ "(" ++ Numeral.decimal o.value ++ ")"

end Operand

namespace Instruction

/-- The name under which an instruction is written. -/
def name : Instruction → String
  | .clearScreen => "ClearScreen"
  | .ret => "Return"
  | .jump _ => "Goto"
  | .call _ => "Call"
  | .skipEqConst .. => "IfRegEqConst"
  | .skipNeConst .. => "IfRegNeqConst"
  | .skipEq .. => "IfRegEqReg"
  | .setConst .. => "SetRegToConst"
  | .addConst .. => "IncRegByConst"
  | .move .. => "SetRegToReg"
  | .or .. => "BitwiseOr"
  | .and .. => "BitwiseAnd"
  | .xor .. => "BitwiseXor"
  | .add .. => "IncRegByReg"
  | .sub .. => "DecRegByReg"
  | .shiftRight _ => "BitshiftRight"
  | .subFrom .. => "SetVxVyMinusVx"
  | .shiftLeft _ => "BitshiftLeft"
  | .skipNe .. => "IfRegNeqReg"
  | .setIndex _ => "SetI"
  | .jumpIndexed _ => "SetPcToV0PlusAddr"
  | .random .. => "SetVxRand"
  | .draw .. => "Draw"
  | .skipKeyDown _ => "IfKeyEqVx"
  | .skipKeyUp _ => "IfKeyNeqVx"
  | .readDelay _ => "SetRegToDelayTimer"
  | .awaitKey _ => "SetRegToGetKey"
  | .setDelay _ => "SetDelayTimerToReg"
  | .setSound _ => "SetSoundTimerToReg"
  | .addIndex _ => "AddRegToI"
  | .glyph _ => "SetIToSpriteAddrVx"
  | .decimal _ => "SetIToBcdOfReg"
  | .store _ => "RegDump"
  | .load _ => "RegLoad"

/-- The operands, in the order of the word. -/
def operands : Instruction → List Operand
  | .clearScreen | .ret => []
  | .jump a | .call a | .setIndex a | .jumpIndexed a => [.addr a]
  | .skipEqConst x n | .skipNeConst x n | .setConst x n | .addConst x n | .random x n =>
    [.reg x, .const n]
  | .skipEq x y | .skipNe x y | .move x y | .or x y | .and x y | .xor x y | .add x y | .sub x y
  | .subFrom x y => [.reg x, .reg y]
  | .draw x y n => [.reg x, .reg y, .const n]
  | .shiftRight x | .shiftLeft x | .skipKeyDown x | .skipKeyUp x | .readDelay x | .awaitKey x
  | .setDelay x | .setSound x | .addIndex x | .glyph x | .decimal x | .store x | .load x => [.reg x]

/-- Name and operands; the parentheses are left out where there are no operands. -/
def text (i : Instruction) : String :=
  match i.operands with
  | [] => i.name
  | os => i.name ++ "(" ++ String.intercalate ", " (os.map Operand.text) ++ ")"

/-- The instruction with a given name and given operand values. -/
def ofParts? (name : String) (values : List Nat) : Option Instruction :=
  match values.map UInt8.ofNat, values.map UInt16.ofNat with
  | [], _ => match name with
    | "ClearScreen" => some .clearScreen
    | "Return" => some .ret
    | _ => none
  | [x], [a] => match name with
    | "Goto" => some (.jump a)
    | "Call" => some (.call a)
    | "SetI" => some (.setIndex a)
    | "SetPcToV0PlusAddr" => some (.jumpIndexed a)
    | "BitshiftRight" => some (.shiftRight x)
    | "BitshiftLeft" => some (.shiftLeft x)
    | "IfKeyEqVx" => some (.skipKeyDown x)
    | "IfKeyNeqVx" => some (.skipKeyUp x)
    | "SetRegToDelayTimer" => some (.readDelay x)
    | "SetRegToGetKey" => some (.awaitKey x)
    | "SetDelayTimerToReg" => some (.setDelay x)
    | "SetSoundTimerToReg" => some (.setSound x)
    | "AddRegToI" => some (.addIndex x)
    | "SetIToSpriteAddrVx" => some (.glyph x)
    | "SetIToBcdOfReg" => some (.decimal x)
    | "RegDump" => some (.store x)
    | "RegLoad" => some (.load x)
    | _ => none
  | [x, y], _ => match name with
    | "IfRegEqConst" => some (.skipEqConst x y)
    | "IfRegNeqConst" => some (.skipNeConst x y)
    | "IfRegEqReg" => some (.skipEq x y)
    | "SetRegToConst" => some (.setConst x y)
    | "IncRegByConst" => some (.addConst x y)
    | "SetRegToReg" => some (.move x y)
    | "BitwiseOr" => some (.or x y)
    | "BitwiseAnd" => some (.and x y)
    | "BitwiseXor" => some (.xor x y)
    | "IncRegByReg" => some (.add x y)
    | "DecRegByReg" => some (.sub x y)
    | "SetVxVyMinusVx" => some (.subFrom x y)
    | "IfRegNeqReg" => some (.skipNe x y)
    | "SetVxRand" => some (.random x y)
    | _ => none
  | [x, y, n], _ => match name with
    | "Draw" => some (.draw x y n)
    | _ => none
  | _, _ => none

/-- An instruction is read back from its name and its operands. -/
theorem ofParts?_name_operands (i : Instruction) :
    ofParts? i.name (i.operands.map Operand.value) = some i := by
  cases i <;> simp [ofParts?, name, operands, Operand.value]

end Instruction

end Chip8
