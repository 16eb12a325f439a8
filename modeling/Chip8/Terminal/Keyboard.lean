import Chip8.Terminal.Key

/-! # The keyboard

    A terminal sends a key as bytes: a character in UTF-8, a control code, or an escape sequence.
    Bytes are taken one at a time and gathered until they are a key, or something that is not one.
    Then the next key starts, also where the bytes made no sense.

        ESC                a key of its own, if no more bytes are at hand
        ESC ESC            the same, with both bytes
        ESC O P … S        function keys 1 to 4
        ESC [ [ A … E      function keys 1 to 5
        ESC [ A …          arrows and the like
        ESC [ digit … x    numbered keys and reports, up to the first byte from 64 to 126
        ESC [ < … m        mouse report, up to m or M
        ESC [ M b x y      mouse report of six bytes
        ESC character      the character, with a modifier that does not matter here

    By itself, a control code from 1 to 26 is the letter it is made with, and one from 28 to 31 a
    digit from `4` to `7`. After ESC it is a character like any other, and stands for no letter or
    digit. Numbered keys are not told apart, since none of them is on the keypad. -/

namespace Chip8.Terminal

/-- What the gathered bytes are. -/
inductive Reading where
  | key (k : Key)
  | other
  | incomplete
  deriving DecidableEq, Repr

namespace Reading

/-- The character that bytes encode, if they are valid. -/
def character? (bytes : List UInt8) : Option Char :=
  (String.fromUTF8? bytes.toByteArray).bind fun s => s.toList.head?

/-- How many bytes a character has, by its first byte. -/
def width? (first : UInt8) : Option Nat :=
  if first ≤ 0x7F then some 1
  else if 0xC0 ≤ first ∧ first ≤ 0xDF then some 2
  else if 0xE0 ≤ first ∧ first ≤ 0xEF then some 3
  else if 0xF0 ≤ first ∧ first ≤ 0xF7 then some 4
  else none

/-- Whether a byte can stand inside a character. -/
def isContinuation (b : UInt8) : Bool := 0x80 ≤ b && b ≤ 0xBF

/-- Reads a character. It is incomplete while all bytes so far fit into one. -/
def ofCharacter (bytes : List UInt8) : Reading :=
  match character? bytes, bytes with
  | some c, _ => .key (.char c)
  | none, [] => .incomplete
  | none, first :: rest =>
    match width? first with
    | some n => if rest.all isContinuation && bytes.length < n then .incomplete else .other
    | none => .other

/-- Reads a key that is no escape sequence. -/
def ofPlain : List UInt8 → Reading
  | [] => .incomplete
  | bytes@(first :: _) =>
    if first = 0x0D ∨ first = 0x0A then .key .enter
    else if first = 0x09 then .key .tab
    else if first = 0x7F then .key .backspace
    else if first = 0x00 then .key .null
    else if first ≤ 0x1A then .key (.char (Char.ofNat (first.toNat - 0x01 + 'a'.toNat)))
    else if 0x1C ≤ first ∧ first ≤ 0x1F then
      .key (.char (Char.ofNat (first.toNat - 0x1C + '4'.toNat)))
    else ofCharacter bytes

/-- Reads what follows `ESC [`. -/
def ofControl : List UInt8 → Reading
  | [] => .incomplete
  | 0x41 :: _ => .key .up
  | 0x42 :: _ => .key .down
  | 0x43 :: _ => .key .right
  | 0x44 :: _ => .key .left
  | 0x46 :: _ => .key .toEnd
  | 0x48 :: _ => .key .home
  | 0x5A :: _ => .key .backTab
  | 0x5B :: [] => .incomplete
  | 0x5B :: n :: _ => if 0x41 ≤ n ∧ n ≤ 0x45 then .key (.function (n.toNat - 0x40)) else .other
  | 0x4D :: rest => if rest.length < 3 then .incomplete else .other
  | 0x3C :: rest =>
    if rest.getLast? = some 0x6D ∨ rest.getLast? = some 0x4D then .other else .incomplete
  | first :: rest =>
    if 0x30 ≤ first ∧ first ≤ 0x39 then
      match rest.getLast? with
      | some last => if 64 ≤ last ∧ last ≤ 126 then .other else .incomplete
      | none => .incomplete
    else .other

/-- Reads gathered bytes; `more` says that the next byte is at hand. -/
def ofBytes (more : Bool) : List UInt8 → Reading
  | [0x1B] => if more then .incomplete else .key .esc
  | 0x1B :: 0x4F :: [] => .incomplete
  | 0x1B :: 0x4F :: n :: _ =>
    if 0x50 ≤ n ∧ n ≤ 0x53 then .key (.function (n.toNat - 0x4F)) else .other
  | 0x1B :: 0x5B :: rest => ofControl rest
  | 0x1B :: 0x1B :: _ => .key .esc
  | 0x1B :: rest => ofCharacter rest
  | bytes => ofPlain bytes

end Reading

/-- The bytes gathered for the next key. -/
structure Keyboard where
  gathered : List UInt8
  deriving DecidableEq

namespace Keyboard

/-- Nothing gathered. -/
def idle : Keyboard := ⟨[]⟩

/-- Takes bytes that arrive together. Gives the keys they complete. -/
def receive (k : Keyboard) : List UInt8 → List Key × Keyboard
  | [] => ([], k)
  | b :: bytes =>
    let gathered := k.gathered ++ [b]
    match Reading.ofBytes (!bytes.isEmpty) gathered with
    | .incomplete => receive ⟨gathered⟩ bytes
    | .other => receive idle bytes
    | .key key =>
      let (keys, k) := receive idle bytes
      (key :: keys, k)

/-- Takes text that is typed at once. -/
def type (k : Keyboard) (text : String) : List Key × Keyboard := k.receive text.toUTF8.toList

end Keyboard

end Chip8.Terminal
