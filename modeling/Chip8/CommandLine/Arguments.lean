/-! # Command-line arguments

    Splits the arguments of a program into flags, options with a value, and operands. A switch is
    given by its long name after two dashes, or by its letter after one; letters share a dash, up to
    the first that takes a value.

        --speed 4   --speed=4   -s 4   -s4   -s=4   -ws4

    A value stands after an equals sign, in the rest of the letters, or in the next argument. The
    next argument is a value unless it starts with a dash and has more than that; so a single dash
    is one, and so an option may be left without any. After `--` every argument is an operand. -/

namespace Chip8.CommandLine

/-- A switch that a program knows. -/
structure Switch where
  letter : Option Char
  long : String
  takesValue : Bool
  deriving DecidableEq, Repr

/-- One thing that was given. Switches are named by their long names. -/
inductive Item where
  | flag (long : String)
  | option (long : String) (value : Option String)
  | operand (text : String)
  deriving DecidableEq, Repr

/-- Whether an argument can be the value of the option before it. -/
def isValue (arg : List Char) : Bool :=
  match arg with
  | '-' :: _ :: _ => false
  | _ => true

/-- Leaves out the equals signs at the front. -/
def afterEquals (text : List Char) : String := String.ofList (text.dropWhile (· == '='))

/-- What one argument gives: items, and the option that still lacks its value. -/
abbrev Given := List Item × Option String

/-- What a switch gives, with the text that follows it in the same argument. -/
def given (s : Switch) (rest : List Char) : Given :=
  if s.takesValue then
    if rest.isEmpty then ([], some s.long) else ([.option s.long (some (afterEquals rest))], none)
  else ([.flag s.long], none)

/-- The switches given by the letters after one dash. -/
def letters? (switches : List Switch) : List Char → Option Given
  | [] => some ([], none)
  | c :: cs => do
    let s ← switches.find? (·.letter == some c)
    if s.takesValue then return given s cs
    else
      let (items, awaiting) ← letters? switches cs
      return (.flag s.long :: items, awaiting)

/-- The switch given by a long name. Further dashes in front of it do not matter, nor does a value
    given to a flag. -/
def long? (switches : List Switch) (text : List Char) : Option Given := do
  let body := text.dropWhile (· == '-')
  let name := String.ofList (body.takeWhile (· != '='))
  let s ← switches.find? (·.long == name)
  return given s (body.dropWhile (· != '='))

/-- What one argument gives by itself. -/
def given? (switches : List Switch) (arg : String) : Option Given :=
  match arg.toList with
  | '-' :: '-' :: cs => long? switches cs
  | '-' :: c :: cs => letters? switches (c :: cs)
  | _ => some ([.operand arg], none)

/-- An option that nothing gave a value. -/
def bare (awaiting : Option String) : List Item := (awaiting.map (.option · none)).toList

/-- Splits arguments while an option may still lack its value. -/
def splitFrom? (switches : List Switch) (awaiting : Option String) :
    List String → Option (List Item)
  | [] => some (bare awaiting)
  | arg :: args =>
    if arg = "--" then some (bare awaiting ++ args.map .operand)
    else match awaiting, isValue arg.toList with
      | some long, true => do return .option long (some arg) :: (← splitFrom? switches none args)
      | _, _ => do
        let (items, awaits) ← given? switches arg
        return bare awaiting ++ items ++ (← splitFrom? switches awaits args)

/-- Splits all arguments. There is no result if a switch is not known. -/
def split? (switches : List Switch) (args : List String) : Option (List Item) :=
  splitFrom? switches none args

/-! ### Reading what was given -/

/-- Whether a flag was given. It may not be repeated. -/
def flag? (items : List Item) (long : String) : Option Bool :=
  match items.filter (· == .flag long) with
  | [] => some false
  | [_] => some true
  | _ => none

/-- The value of an option; `otherwise` stands in where it is not given, or given without a value.
    It may not be repeated. -/
def value? (items : List Item) (long otherwise : String) : Option String :=
  match items.filterMap fun | .option l v => if l = long then some v else none | _ => none with
  | [] => some otherwise
  | [v] => some (v.getD otherwise)
  | _ => none

/-- The value of an option that nothing stands in for: it may be left out, but not be given without
    a value. -/
def optionalValue? (items : List Item) (long : String) : Option (Option String) :=
  match items.filterMap fun | .option l v => if l = long then some v else none | _ => none with
  | [] => some none
  | [some v] => some (some v)
  | _ => none

/-- The only operand. -/
def operand? (items : List Item) : Option String :=
  match items.filterMap fun | .operand text => some text | _ => none with
  | [text] => some text
  | _ => none

end Chip8.CommandLine
