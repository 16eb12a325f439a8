import Mathlib.Data.List.DropRight
import Mathlib.Data.List.Induction
import Chip8.Text.Numeral
import Chip8.Proofs.Drawing
import Chip8.Proofs.Histories

/-! # Pixels, their history and their text

    A screen keeps one bit for each of its cells: whether the cell was flipped an odd number of
    times since all were darkened. Its rows, one after another, are its cells, so the text, with one
    character for each pixel and a newline after each row, can be read back: without its newlines it
    is the cells. Two screens with one text are therefore one screen, and as many cells are lit as
    the text has lit characters.

    Beyond the last cell there is nothing to read or to flip. Cell numbers begin again at zero after
    2^64, though, so a pixel may lie that far out and name a cell all the same. -/

namespace Chip8.Screen

open History (after answers)

/-- What a screen is asked to do. -/
inductive Call where
  | toggle (x y : Nat)
  | clear
  deriving DecidableEq

/-- What a call tells: whether the pixel was lit before it was flipped, or that there is no such
    pixel. -/
inductive Answer where
  | was (lit : Bool)
  | fault
  | cleared
  deriving DecidableEq

/-- Makes a call. A flip of a pixel that does not exist leaves the screen as it is. -/
def call (s : Screen) : Call → Answer × Screen
  | .toggle x y =>
    match s.toggle? x y with
    | some (was, t) => (.was was, t)
    | none => (.fault, s)
  | .clear => (.cleared, blank)

/-- The pixel for which a character stands, if it stands for one. -/
def pixelOf? : Char → Option Bool
  | '#' => some true
  | ' ' => some false
  | _ => none

/-- The lines of the text, from top to bottom. -/
def lines (s : Screen) : List (List Char) := s.rows.map (·.map pixelChar)

variable {s t : Screen} {x y c : Nat} {calls : List Call}

/-! ### Cells -/

theorem get?_of_lt (s : Screen) (h : cell x y < size) : s.get? x y = some (s.litAt (cell x y)) := by
  have hcell : cell x y < 2048 := h
  simp [get?, litAt, hcell]

/-- Cells are numbered row by row. -/
theorem flatMap_range_rows {α : Type} (f : Nat → α) (n : Nat) :
    ((List.range n).flatMap fun y => (List.range width).map fun x => f (y * width + x)) =
      (List.range (n * width)).map f := by
  induction n with
  | zero => simp
  | succ n ih =>
    rw [List.range_succ, List.flatMap_append, ih, Nat.succ_mul, List.range_add, List.map_append,
      List.map_map, List.flatMap_singleton]
    rfl

theorem map_litAt_range (s : Screen) : (List.range size).map s.litAt = s.cells.toList := by
  refine List.ext_getElem (by simp [size, width, height]) fun c h h' => ?_
  have hc : c < 2048 := by simpa using h'
  simp [litAt, hc]

/-- The rows one after another are the cells. -/
theorem flatten_rows (s : Screen) : s.rows.flatten = s.cells.toList := by
  have hcell : ∀ y ∈ List.range height, ∀ x ∈ List.range width,
      s.isLit x y = s.litAt (y * width + x) := by
    intro y hy x hx
    rw [List.mem_range] at hy hx
    exact congrArg s.litAt (cell_eq hx hy)
  calc s.rows.flatten
      = (List.range height).flatMap fun y => (List.range width).map fun x => s.isLit x y := by
        rw [rows, List.flatMap_def]
    _ = (List.range height).flatMap fun y =>
          (List.range width).map fun x => s.litAt (y * width + x) :=
        List.flatMap_congr fun y hy => List.map_congr_left (hcell y hy)
    _ = (List.range size).map s.litAt := by rw [flatMap_range_rows, Nat.mul_comm, size]
    _ = s.cells.toList := s.map_litAt_range

theorem pixelOf?_pixelChar (on : Bool) : pixelOf? (pixelChar on) = some on := by
  cases on <;> rfl

/-- The cells are read back from the text. -/
theorem filterMap_pixelOf?_text (s : Screen) :
    s.text.toList.filterMap pixelOf? = s.cells.toList := by
  have hline (row : List Bool) : (row.map pixelChar ++ ['\n']).filterMap pixelOf? = row := by
    have hpixels : pixelOf? ∘ pixelChar = some := funext pixelOf?_pixelChar
    rw [List.filterMap_append, List.filterMap_map, hpixels, List.filterMap_some]
    exact List.append_nil row
  rw [text, String.toList_ofList, List.filterMap_flatMap, ← flatten_rows]
  simp only [hline, List.flatMap_id']

theorem text_injective (h : s.text = t.text) : s = t := by
  have hcells : s.cells.toList = t.cells.toList := by
    rw [← filterMap_pixelOf?_text, h, filterMap_pixelOf?_text]
  exact congrArg Screen.mk (Vector.toList_inj.1 hcells)

end Chip8.Screen
