import Chip8.Terminal.Grid
import Mathlib.Data.List.Basic

/-! # Drawing on a terminal

    Only pixels that differ from what is drawn are written, and yet the terminal always shows the
    whole screen inside its box. A pixel has two places of its own, inside the box, so its last
    write decides what they show, and the box stays as it was drawn at first. The pixels that are
    written are exactly the ones that differ, each once, row by row and from left to right. -/

namespace Chip8

namespace Screen

theorem isLit_eq (s : Screen) {c : Nat} (h : c < 2048) :
    s.isLit (c % 64) (c / 64) = s.cells[c] := by
  have hcell : cell (c % 64) (c / 64) = c := by
    rw [cell_eq (Nat.mod_lt _ (by decide)) (Nat.div_lt_of_lt_mul h)]
    omega
  simp [isLit, get?, hcell, h]

/-- A screen is its pixels. -/
theorem ext_isLit {s t : Screen} (h : ∀ x < 64, ∀ y < 32, s.isLit x y = t.isLit x y) : s = t := by
  have hcells : s.cells = t.cells := by
    refine Vector.ext fun c hc => ?_
    rw [← s.isLit_eq hc, ← t.isLit_eq hc]
    exact h _ (Nat.mod_lt _ (by decide)) _ (Nat.div_lt_of_lt_mul hc)
  exact congrArg Screen.mk hcells

end Screen

namespace Terminal

/-- How a pixel looks in each of its two columns. -/
def block (on : Bool) : Char := if on then '█' else ' '

/-- The character that a write puts at a place, if it puts one there. -/
def Write.at? (column row : Nat) : Write → Option Char
  | .text x y s => if row = y ∧ x ≤ column then s.toList[column - x]? else none
  | .clear => some ' '
  | .enterScreen | .leaveScreen | .hideCursor | .showCursor | .bell => none

namespace Grid

/-- The terminal shows a screen: the box at its border, two blocks for every pixel inside, and
    nothing outside. -/
structure Shows (g : Grid) (s : Screen) : Prop where
  border : ∀ column ≤ Canvas.right, ∀ row ≤ Canvas.bottom, ∀ c,
    Canvas.boxChar? column row = some c → g column row = c
  pixel : ∀ x < 64, ∀ y < 32,
    g (2 * x + 1) (y + 1) = block (s.isLit x y) ∧ g (2 * x + 2) (y + 1) = block (s.isLit x y)
  outside : ∀ column row, Canvas.right < column ∨ Canvas.bottom < row → g column row = ' '

variable {g : Grid} {w : Write} {ws : List Write} {column row : Nat} {c : Char}

/-! ### Places one by one -/

theorem apply_eq (g : Grid) (w : Write) (column row : Nat) :
    g.apply w column row = (w.at? column row).getD (g column row) := by
  cases w with
  | text x y s =>
    simp only [apply, put, Write.at?]
    split <;> rfl
  | _ => rfl

theorem applyAll_cons (g : Grid) (w : Write) (ws : List Write) :
    g.applyAll (w :: ws) = (g.apply w).applyAll ws := rfl

theorem applyAll_append (g : Grid) (ws ws' : List Write) :
    g.applyAll (ws ++ ws') = (g.applyAll ws).applyAll ws' := List.foldl_append

theorem applyAll_of_none (h : ∀ w ∈ ws, w.at? column row = none) :
    g.applyAll ws column row = g column row := by
  induction ws generalizing g with
  | nil => rfl
  | cons w ws ih =>
    obtain ⟨hw, hws⟩ := List.forall_mem_cons.1 h
    rw [applyAll_cons, ih hws, apply_eq, hw]
    rfl

/-- Where all writes agree, it does not matter which was the last. -/
theorem applyAll_of_some (h : ∀ w ∈ ws, w.at? column row = none ∨ w.at? column row = some c)
    (hsome : ∃ w ∈ ws, w.at? column row = some c) : g.applyAll ws column row = c := by
  induction ws generalizing g with
  | nil => obtain ⟨w, hw, -⟩ := hsome; cases hw
  | cons w ws ih =>
    obtain ⟨hw, hws⟩ := List.forall_mem_cons.1 h
    rw [applyAll_cons]
    by_cases hlater : ∃ w ∈ ws, w.at? column row = some c
    · exact ih hws hlater
    · have hnone : ∀ w ∈ ws, w.at? column row = none := fun w' hw' =>
        (hws w' hw').resolve_right fun hsome' => hlater ⟨w', hw', hsome'⟩
      have hfirst : w.at? column row = some c := by
        obtain ⟨w', hw', hsome'⟩ := hsome
        rcases List.mem_cons.1 hw' with rfl | hw'
        · exact hsome'
        · exact absurd ⟨w', hw', hsome'⟩ hlater
      rw [applyAll_of_none hnone, apply_eq, hfirst]
      rfl

end Grid

namespace Canvas

/-- Whether a pixel comes before another: in a row above, or to the left in the same row. -/
def Precedes (p q : Nat × Nat) : Prop := p.2 < q.2 ∨ p.2 = q.2 ∧ p.1 < q.1

/-- The writes draw exactly the pixels in which two screens differ, each once and in order. -/
def Draws (before after : Screen) (ws : List Write) : Prop :=
  ∃ pixels : List (Nat × Nat),
    ws = pixels.map (fun p => pixelWrite p.1 p.2 (after.isLit p.1 p.2)) ∧
    pixels.Pairwise Precedes ∧
    ∀ x y, (x, y) ∈ pixels ↔ x < 64 ∧ y < 32 ∧ before.isLit x y ≠ after.isLit x y

variable {g : Grid} {before after : Screen} {ws : List Write}

/-! ### What is written -/

/-- The pixels in which two screens differ, row by row. -/
def changed (before after : Screen) : List (Nat × Nat) :=
  (List.range Screen.height).flatMap fun y =>
    ((List.range Screen.width).filter fun x => after.isLit x y != before.isLit x y).map (·, y)

theorem mem_changed (x y : Nat) :
    (x, y) ∈ changed before after ↔ x < 64 ∧ y < 32 ∧ before.isLit x y ≠ after.isLit x y := by
  simp only [changed, Screen.height, Screen.width, List.mem_flatMap, List.mem_range, List.mem_map,
    List.mem_filter, bne_iff_ne, Prod.mk.injEq]
  constructor
  · rintro ⟨_, hy, _, ⟨hx, hne⟩, rfl, rfl⟩
    exact ⟨hx, hy, hne.symm⟩
  · rintro ⟨hx, hy, hne⟩
    exact ⟨y, hy, x, ⟨hx, hne.symm⟩, rfl, rfl⟩

theorem pairwise_changed : (changed before after).Pairwise Precedes := by
  refine List.pairwise_flatMap.2 ⟨fun y _ => ?_, ?_⟩
  · exact List.pairwise_map.2 ((List.pairwise_lt_range.filter _).imp fun hlt => Or.inr ⟨rfl, hlt⟩)
  · refine List.pairwise_lt_range.imp fun hlt => ?_
    simp only [List.mem_map]
    rintro _ ⟨x, -, rfl⟩ _ ⟨x', -, rfl⟩
    exact Or.inl hlt

theorem changes_eq_map (before after : Screen) :
    changes before after =
      (changed before after).map fun p => pixelWrite p.1 p.2 (after.isLit p.1 p.2) := by
  simp only [changes, changed, List.map_flatMap, ← List.filterMap_eq_map, List.filterMap_filter,
    List.filterMap_filterMap]
  refine List.flatMap_congr fun y _ => List.filterMap_congr fun x _ => ?_
  by_cases h : after.isLit x y = before.isLit x y <;> simp [h]

theorem draws_changes (before after : Screen) : Draws before after (changes before after) :=
  ⟨changed before after, changes_eq_map before after, pairwise_changed, mem_changed⟩

theorem draws_self (s : Screen) : Draws s s [] :=
  ⟨[], rfl, .nil, fun x y => by simp⟩

/-- A redraw draws the difference to what is drawn, and remembers what it drew. -/
theorem draws_redraw (c : Canvas) (s : Screen) :
    Draws c.shown s (c.redraw s).1 ∧ (c.redraw s).2.shown = s := by
  rw [redraw]
  split
  · rename_i hsame
    exact ⟨hsame ▸ draws_self c.shown, hsame⟩
  · exact ⟨draws_changes c.shown s, rfl⟩

theorem Draws.eq_nil_iff (h : Draws before after ws) : ws = [] ↔ after = before := by
  obtain ⟨pixels, rfl, -, hmem⟩ := h
  rw [List.map_eq_nil_iff]
  constructor
  · rintro rfl
    refine Screen.ext_isLit fun x hx y hy => ?_
    by_contra hne
    exact List.not_mem_nil ((hmem x y).2 ⟨hx, hy, fun heq => hne heq.symm⟩)
  · rintro rfl
    refine List.eq_nil_iff_forall_not_mem.2 fun p hp => ?_
    exact ((hmem p.1 p.2).1 hp).2.2 rfl

/-! ### What is shown -/

/-- The two places of a pixel. -/
def IsPlace (x y column row : Nat) : Prop :=
  row = y + 1 ∧ (column = 2 * x + 1 ∨ column = 2 * x + 2)

theorem toList_pixelText (on : Bool) : (pixelText on).toList = [block on, block on] := by
  cases on <;> decide

theorem at?_pixelWrite_of_isPlace {x y column row : Nat} (h : IsPlace x y column row) (on : Bool) :
    (pixelWrite x y on).at? column row = some (block on) := by
  obtain ⟨rfl, rfl | rfl⟩ := h
  · simp [pixelWrite, Write.at?, toList_pixelText]
  · simp [pixelWrite, Write.at?, toList_pixelText]

theorem at?_pixelWrite_of_not_isPlace {x y column row : Nat} (h : ¬ IsPlace x y column row)
    (on : Bool) : (pixelWrite x y on).at? column row = none := by
  unfold IsPlace at h
  simp only [pixelWrite, Write.at?, toList_pixelText, ite_eq_right_iff]
  intro hright
  exact List.getElem?_eq_none (by simp only [List.length_cons, List.length_nil]; omega)

theorem IsPlace.unique {x y x' y' column row : Nat} (h : IsPlace x y column row)
    (h' : IsPlace x' y' column row) : x = x' ∧ y = y' := by
  unfold IsPlace at h h'
  omega

/-- A place of no pixel is not written. -/
theorem Draws.applyAll_of_not_isPlace (h : Draws before after ws) {column row : Nat}
    (hplace : ∀ x < 64, ∀ y < 32, ¬ IsPlace x y column row) :
    g.applyAll ws column row = g column row := by
  obtain ⟨pixels, rfl, -, hmem⟩ := h
  refine Grid.applyAll_of_none fun w hw => ?_
  obtain ⟨⟨x, y⟩, hp, rfl⟩ := List.mem_map.1 hw
  obtain ⟨hx, hy, -⟩ := (hmem x y).1 hp
  exact at?_pixelWrite_of_not_isPlace (hplace x hx y hy) _

/-- A place of a pixel is written if the pixel differs, and only for this pixel. -/
theorem Draws.applyAll_of_isPlace (h : Draws before after ws) {x y column row : Nat} (hx : x < 64)
    (hy : y < 32) (hplace : IsPlace x y column row)
    (hbefore : g column row = block (before.isLit x y)) :
    g.applyAll ws column row = block (after.isLit x y) := by
  obtain ⟨pixels, rfl, -, hmem⟩ := h
  by_cases hp : (x, y) ∈ pixels
  · refine Grid.applyAll_of_some (fun w hw => ?_) ⟨_, List.mem_map_of_mem hp, ?_⟩
    · obtain ⟨⟨x', y'⟩, -, rfl⟩ := List.mem_map.1 hw
      by_cases hplace' : IsPlace x' y' column row
      · obtain ⟨rfl, rfl⟩ := hplace.unique hplace'
        exact Or.inr (at?_pixelWrite_of_isPlace hplace _)
      · exact Or.inl (at?_pixelWrite_of_not_isPlace hplace' _)
    · exact at?_pixelWrite_of_isPlace hplace _
  · have hsame : before.isLit x y = after.isLit x y :=
      not_not.1 fun hne => hp ((hmem x y).2 ⟨hx, hy, hne⟩)
    rw [Grid.applyAll_of_none, hbefore, hsame]
    intro w hw
    obtain ⟨⟨x', y'⟩, hp', rfl⟩ := List.mem_map.1 hw
    refine at?_pixelWrite_of_not_isPlace (fun hplace' => ?_) _
    obtain ⟨rfl, rfl⟩ := hplace.unique hplace'
    exact hp hp'

theorem boxChar?_eq_none_iff (column row : Nat) :
    boxChar? column row = none ↔ row ≠ 0 ∧ row ≠ 33 ∧ column ≠ 0 ∧ column ≠ 129 := by
  simp only [boxChar?, right, bottom, Screen.width, Screen.height]
  grind

/-- The places of pixels are inside the box. -/
theorem IsPlace.inside {x y column row : Nat} (h : IsPlace x y column row) (hx : x < 64)
    (hy : y < 32) : boxChar? column row = none ∧ column ≤ right ∧ row ≤ bottom := by
  obtain ⟨hrow, hcolumn⟩ := h
  rw [boxChar?_eq_none_iff]
  simp only [right, bottom, Screen.width, Screen.height]
  omega

end Canvas

namespace Grid

variable {g : Grid} {before after : Screen} {ws : List Write}

/-- Drawing the difference to what is shown makes the terminal show the new screen. -/
theorem Shows.draw (h : g.Shows before) (hdraws : Canvas.Draws before after ws) :
    (g.applyAll ws).Shows after := by
  refine ⟨fun column hc row hr c hbox => ?_, fun x hx y hy => ⟨?_, ?_⟩, fun column row hout => ?_⟩
  · rw [hdraws.applyAll_of_not_isPlace fun x hx y hy hplace => ?_, h.border column hc row hr c hbox]
    cases hbox.symm.trans (hplace.inside hx hy).1
  · exact hdraws.applyAll_of_isPlace hx hy ⟨rfl, Or.inl rfl⟩ (h.pixel x hx y hy).1
  · exact hdraws.applyAll_of_isPlace hx hy ⟨rfl, Or.inr rfl⟩ (h.pixel x hx y hy).2
  · rw [hdraws.applyAll_of_not_isPlace fun x hx y hy hplace => ?_, h.outside column row hout]
    have hinside := (hplace.inside hx hy).2
    omega

/-! ### The box -/

theorem mem_box {w : Write} : w ∈ Canvas.box ↔ ∃ column ≤ Canvas.right, ∃ row ≤ Canvas.bottom, ∃ c,
    Canvas.boxChar? column row = some c ∧ w = .text column row (String.ofList [c]) := by
  simp only [Canvas.box, List.mem_flatMap, List.mem_filterMap, List.mem_range,
    Option.map_eq_some_iff, Nat.lt_succ_iff]
  constructor
  · rintro ⟨row, hr, column, hc, c, hbox, rfl⟩
    exact ⟨column, hc, row, hr, c, hbox, rfl⟩
  · rintro ⟨column, hc, row, hr, c, hbox, rfl⟩
    exact ⟨row, hr, column, hc, c, hbox, rfl⟩

theorem at?_char (x y column row : Nat) (c : Char) :
    (Write.text x y (String.ofList [c])).at? column row =
      if row = y ∧ column = x then some c else none := by
  simp only [Write.at?, String.toList_ofList]
  rcases Nat.lt_trichotomy column x with hlt | rfl | hgt
  · rw [if_neg (by omega), if_neg (by omega)]
  · simp
  · rw [if_neg (c := _ ∧ column = x) (by omega), List.getElem?_eq_none, ite_self]
    simp only [List.length_singleton]
    omega

theorem applyAll_box_of_some (g : Grid) {column row : Nat} (hc : column ≤ Canvas.right)
    (hr : row ≤ Canvas.bottom) {c : Char} (hbox : Canvas.boxChar? column row = some c) :
    g.applyAll Canvas.box column row = c := by
  refine applyAll_of_some (fun w hw => ?_) ⟨_, mem_box.2 ⟨column, hc, row, hr, c, hbox, rfl⟩, ?_⟩
  · obtain ⟨x, -, y, -, c', hbox', rfl⟩ := mem_box.1 hw
    rw [at?_char]
    split
    · rename_i hplace
      obtain ⟨rfl, rfl⟩ := hplace
      exact Or.inr (hbox'.symm.trans hbox)
    · exact Or.inl rfl
  · rw [at?_char, if_pos ⟨rfl, rfl⟩]

theorem applyAll_box_of_none (g : Grid) {column row : Nat}
    (hbox : Canvas.right < column ∨ Canvas.bottom < row ∨ Canvas.boxChar? column row = none) :
    g.applyAll Canvas.box column row = g column row := by
  refine applyAll_of_none fun w hw => ?_
  obtain ⟨x, hx, y, hy, c', hbox', rfl⟩ := mem_box.1 hw
  rw [at?_char, if_neg]
  rintro ⟨rfl, rfl⟩
  rw [hbox'] at hbox
  simp only [reduceCtorEq, or_false] at hbox
  omega

theorem isLit_blank (x y : Nat) : Screen.blank.isLit x y = false := by
  simp only [Screen.isLit, Screen.get?, Screen.blank, Vector.getElem?_replicate]
  split <;> rfl

/-- After the opening, whatever there was before, the terminal shows a dark screen in its box. -/
theorem shows_opening (g : Grid) : (g.applyAll Canvas.opening).Shows Screen.blank := by
  have hclear : g.applyAll [.enterScreen, .hideCursor, .clear] = blank := rfl
  have hpixel : ∀ x < 64, ∀ y < 32, ∀ column row, Canvas.IsPlace x y column row →
      blank.applyAll Canvas.box column row = block (Screen.blank.isLit x y) := by
    intro x hx y hy column row hplace
    rw [applyAll_box_of_none _ (Or.inr (Or.inr (hplace.inside hx hy).1)), isLit_blank]
    rfl
  rw [Canvas.opening, applyAll_append, hclear]
  refine ⟨fun column hc row hr c hbox => ?_, fun x hx y hy => ⟨?_, ?_⟩, fun column row hout => ?_⟩
  · exact applyAll_box_of_some _ hc hr hbox
  · exact hpixel x hx y hy _ _ ⟨rfl, Or.inl rfl⟩
  · exact hpixel x hx y hy _ _ ⟨rfl, Or.inr rfl⟩
  · rw [applyAll_box_of_none _ (by omega)]
    rfl

/-! ### Screens one after the other -/

/-- A terminal and its canvas after screens were drawn in order. -/
def redrawAll (g : Grid) (c : Canvas) : List Screen → Grid × Canvas
  | [] => (g, c)
  | s :: ss => redrawAll (g.applyAll (c.redraw s).1) (c.redraw s).2 ss

/-- However many screens are drawn, the terminal shows the last one, and the canvas knows it. -/
theorem shows_redrawAll {c : Canvas} (h : g.Shows c.shown) (screens : List Screen) :
    let (g', c') := g.redrawAll c screens
    c'.shown = screens.getLastD c.shown ∧ g'.Shows c'.shown := by
  induction screens generalizing g c with
  | nil => exact ⟨rfl, h⟩
  | cons s ss ih =>
    obtain ⟨hdraws, hshown⟩ := c.draws_redraw s
    have hrest := ih (c := (c.redraw s).2) (hshown ▸ h.draw hdraws)
    rw [hshown] at hrest
    rw [List.getLastD_cons]
    exact hrest

end Grid

end Terminal

end Chip8
