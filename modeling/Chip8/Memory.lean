/-! # Memory

    4096 bytes on a ring: an address is any number, and counts modulo 4096. Blocks of bytes are read
    and written from an address upward, and go on at the bottom when they pass the top. -/

namespace Chip8

/-- The bytes of a machine. -/
structure Memory where
  cells : Vector UInt8 4096
  deriving DecidableEq

namespace Memory

/-- Number of bytes. -/
def size : Nat := 4096

/-- Where programs start; the space below holds the font. -/
def programStart : Nat := 0x200

/-- The longest program that fits. -/
def maxRom : Nat := size - programStart

/-- The byte at an address. -/
def read (m : Memory) (a : Nat) : UInt8 := m.cells[a % 4096]

/-- Puts one byte at an address. -/
def write (m : Memory) (a : Nat) (b : UInt8) : Memory := ⟨m.cells.set (a % 4096) b⟩

/-- The `n` bytes from an address upward. -/
def slice (m : Memory) (a n : Nat) : List UInt8 := (List.range n).map fun k => m.read (a + k)

/-- Writes bytes from an address upward. -/
def store (m : Memory) (a : Nat) : List UInt8 → Memory
  | [] => m
  | b :: bs => (m.write a b).store (a + 1) bs

/-- Memory that holds `bytes` at the bottom, and zeros above. -/
def ofBytes (bytes : Array UInt8) : Memory := ⟨Vector.ofFn fun i => bytes[i.val]?.getD 0⟩

/-- Replaces the program space: the program, and zeros after it. -/
def withProgram (m : Memory) (rom : Array UInt8) : Memory :=
  ⟨Vector.ofFn fun i =>
    if i.val < programStart then m.cells[i] else rom[i.val - programStart]?.getD 0⟩

/-! ### What reading sees -/

theorem read_write (m : Memory) (a b : Nat) (v : UInt8) :
    (m.write a v).read b = if a % 4096 = b % 4096 then v else m.read b := by
  simp [read, write, Vector.getElem_set]

theorem read_withProgram (m : Memory) (rom : Array UInt8) {a : Nat} (h : a < 4096) :
    (m.withProgram rom).read a =
      if a < programStart then m.read a else rom[a - programStart]?.getD 0 := by
  simp [read, withProgram, Nat.mod_eq_of_lt h]

@[simp] theorem length_slice (m : Memory) (a n : Nat) : (m.slice a n).length = n := by
  simp [slice]

end Memory

end Chip8
