import Chip8.Machine.Execute
import Mathlib.Algebra.BigOperators.Group.Finset.Basic
import Mathlib.Algebra.BigOperators.Intervals

/-! # Drawing

    Drawing flips pixels one after the other, so a cell ends up as it was or inverted by the parity
    of its flips, and a lit pixel was met as soon as a lit cell is flipped once or any cell twice.
    The flips of a cell are counted straight from memory: one for each set bit of the sprite that
    lands on it. Up to 32 rows no two bits land on one cell, and then the flag tells exactly whether
    some cell went dark. -/

namespace Chip8

namespace Screen

/-- Whether a cell is lit; a cell that does not exist is dark. -/
def litAt (s : Screen) (c : Nat) : Bool := s.cells[c]?.getD false

theorem litAt_blank (c : Nat) : blank.litAt c = false := by
  simp only [litAt, blank, Vector.getElem?_replicate]
  split <;> rfl

theorem ext_litAt {s t : Screen} (h : ∀ c, s.litAt c = t.litAt c) : s = t := by
  cases s
  cases t
  congr 1
  exact Vector.ext fun c hc => by simpa [litAt, hc] using h c

/-- How often a list of pixels names cell `c`. -/
def timesNamed (c : Nat) (pixels : List (Nat × Nat)) : Nat :=
  pixels.countP fun p => cell p.1 p.2 == c

/-! ### Flipping pixels in turn -/

theorem toggle?_eq (s : Screen) {x y : Nat} (h : cell x y < 2048) :
    ∃ t, s.toggle? x y = some (s.litAt (cell x y), t) ∧
      ∀ c, t.litAt c = (s.litAt c ^^ (cell x y == c)) := by
  refine ⟨⟨s.cells.set (cell x y) (!s.cells[cell x y])⟩, by simp [toggle?, litAt, h], ?_⟩
  intro c
  rcases eq_or_ne (cell x y) c with rfl | hc
  · simp [litAt, h]
  · simp [litAt, hc, beq_eq_false_iff_ne.2 hc]

theorem timesNamed_cons (c : Nat) (p : Nat × Nat) (pixels : List (Nat × Nat)) :
    timesNamed c (p :: pixels) =
      timesNamed c pixels + if cell p.1 p.2 == c then 1 else 0 :=
  List.countP_cons

/-- The parities of two numbers of flips make up that of their sum. -/
theorem xor_odd_add (a : Bool) (j k : Nat) :
    ((a ^^ (j % 2 == 1)) ^^ (k % 2 == 1)) = (a ^^ ((j + k) % 2 == 1)) := by
  rcases Nat.mod_two_eq_zero_or_one j with hj | hj <;>
    rcases Nat.mod_two_eq_zero_or_one k with hk | hk <;> cases a <;> simp [hj, hk, Nat.add_mod]

/-- One more flip of cell `k` turns its parity. -/
theorem odd_add_ite (a : Bool) (k c n : Nat) :
    ((a ^^ (k == c)) ^^ (n % 2 == 1)) = (a ^^ ((n + if k == c then 1 else 0) % 2 == 1)) := by
  have hflip : ((if k == c then 1 else 0) % 2 == 1) = (k == c) := by cases k == c <;> rfl
  rw [Nat.add_comm, ← xor_odd_add, hflip]

/-- Whether a lit cell is met, told before and after a flip of cell `k`: the flip meets `k` itself,
    and any other flip of `k` meets it if it was dark before. -/
theorem meets_lit_iff {lit lit' : Nat → Bool} {k : Nat} (times : Nat → Nat)
    (h : ∀ c, lit' c = (lit c ^^ (k == c))) :
    (lit k = true ∨ ∃ c, (lit' c = true ∧ 1 ≤ times c) ∨ 2 ≤ times c) ↔
      ∃ c, (lit c = true ∧ 1 ≤ times c + if k == c then 1 else 0) ∨
        2 ≤ times c + if k == c then 1 else 0 := by
  have hk : lit' k = !lit k := by simp [h]
  have hne : ∀ c, k ≠ c → lit' c = lit c ∧ (k == c) = false := by
    intro c hc
    simp [h, beq_eq_false_iff_ne.2 hc]
  constructor
  · rintro (hlit | ⟨c, hc⟩)
    · exact ⟨k, Or.inl ⟨hlit, by simp⟩⟩
    · rcases eq_or_ne k c with rfl | hkc
      · refine ⟨k, Or.inr ?_⟩
        simp only [beq_self_eq_true, if_true]
        rcases hc with ⟨_, hc⟩ | hc <;> omega
      · obtain ⟨hl, hb⟩ := hne c hkc
        exact ⟨c, by simpa [hb, hl] using hc⟩
  · rintro ⟨c, hc⟩
    rcases eq_or_ne k c with rfl | hkc
    · rcases hlit : lit k with _ | _
      · -- dark before, so one of the two flips comes after this one
        refine Or.inr ⟨k, Or.inl ⟨by simp [hk, hlit], ?_⟩⟩
        simp only [hlit, beq_self_eq_true, if_true] at hc
        rcases hc with ⟨hc, _⟩ | hc
        · exact absurd hc (by decide)
        · omega
      · exact Or.inl rfl
    · obtain ⟨hl, hb⟩ := hne c hkc
      exact Or.inr ⟨c, by simpa [hb, hl] using hc⟩

/-- Flipping pixels that are all on the screen. -/
theorem toggleAll?_eq (s : Screen) {pixels : List (Nat × Nat)}
    (h : ∀ p ∈ pixels, cell p.1 p.2 < 2048) :
    ∃ hit t, s.toggleAll? pixels = some (hit, t) ∧
      (∀ c, t.litAt c = (s.litAt c ^^ (timesNamed c pixels % 2 == 1))) ∧
      (hit = true ↔
        ∃ c, (s.litAt c = true ∧ 1 ≤ timesNamed c pixels) ∨ 2 ≤ timesNamed c pixels) := by
  induction pixels generalizing s with
  | nil => exact ⟨false, s, rfl, by simp [timesNamed], by simp [timesNamed]⟩
  | cons p pixels ih =>
    obtain ⟨hp, hrest⟩ := List.forall_mem_cons.1 h
    obtain ⟨t, ht, hlit⟩ := s.toggle?_eq hp
    obtain ⟨hit, u, hu, hcells, hhit⟩ := ih t hrest
    refine ⟨s.litAt (cell p.1 p.2) || hit, u, by simp [toggleAll?, ht, hu], ?_, ?_⟩
    · intro c
      rw [hcells, hlit, timesNamed_cons, odd_add_ite]
    · simp only [timesNamed_cons]
      rw [Bool.or_eq_true, hhit, meets_lit_iff _ hlit]

end Screen

namespace Sprite

/-- The cell on which a point lands, if any: both coordinates wrap around or, without wrapping, both
    have to be on the screen. -/
def landing? (wraps : Bool) (column row : Nat) : Option Nat :=
  if wraps then some (Screen.cell (column % 64) (row % 32))
  else if column < 64 ∧ row < 32 then some (Screen.cell column row)
  else none

/-! ### Where pixels are -/

theorem onAxis?_lt {wraps : Bool} {size coord p : Nat} (hs : 0 < size)
    (h : onAxis? wraps size coord = some p) : p < size := by
  unfold onAxis? at h
  split at h
  · cases h
    assumption
  · split at h <;> cases h
    exact Nat.mod_lt _ hs

theorem mem_rowPixels {wraps : Bool} {x y : Nat} {row : UInt8} {p : Nat × Nat}
    (h : p ∈ rowPixels wraps x y row) : p.1 < 64 ∧ p.2 = y := by
  obtain ⟨col, -, hcol⟩ := List.mem_filterMap.1 h
  split at hcol
  · obtain ⟨px, hpx, rfl⟩ := Option.map_eq_some_iff.1 hcol
    exact ⟨onAxis?_lt (by decide) hpx, rfl⟩
  · cases hcol

/-- A sprite only flips pixels of the screen. -/
theorem mem_pixels {wraps : Bool} {x : Nat} {p : Nat × Nat} {rows : List UInt8} :
    ∀ {y : Nat}, p ∈ pixels wraps x y rows → p.1 < 64 ∧ p.2 < 32 := by
  induction rows with
  | nil => intro y h; cases h
  | cons row rows ih =>
    intro y h
    rcases List.mem_append.1 h with h | h
    · split at h
      · rename_i py hpy
        obtain ⟨h1, h2⟩ := mem_rowPixels h
        exact ⟨h1, h2 ▸ onAxis?_lt (by decide) hpy⟩
      · cases h
    · exact ih h

theorem cell_lt {x y : Nat} (hx : x < 64) (hy : y < 32) : Screen.cell x y < 2048 := by
  rw [Screen.cell_eq hx hy]
  omega

/-- Where a point lands, in numbers. -/
theorem landing?_eq (wraps : Bool) (column row : Nat) :
    landing? wraps column row =
      if wraps then some (row % 32 * 64 + column % 64)
      else if column < 64 ∧ row < 32 then some (row * 64 + column) else none := by
  have hinside : Screen.cell (column % 64) (row % 32) = row % 32 * 64 + column % 64 :=
    Screen.cell_eq (Nat.mod_lt _ (by decide)) (Nat.mod_lt _ (by decide))
  rw [landing?, hinside]
  split
  · rfl
  · split
    · rename_i hlt
      rw [Screen.cell_eq hlt.1 hlt.2]
    · rfl

theorem landing?_eq_bind (wraps : Bool) (column row : Nat) :
    landing? wraps column row = (onAxis? wraps Screen.height row).bind fun py =>
      (onAxis? wraps Screen.width column).map fun px => Screen.cell px py := by
  unfold landing? onAxis? Screen.height Screen.width
  grind

/-! ### Counting flips -/

theorem countP_range (q : Nat → Bool) (n : Nat) :
    (List.range n).countP q = ∑ k ∈ Finset.range n, if q k then 1 else 0 := by
  induction n with
  | zero => rfl
  | succ n ih => rw [List.range_succ, List.countP_append, ih, Finset.sum_range_succ]; simp

/-- Whether column `col` of a sprite row is set and the point lands on cell `c`. -/
def covers (wraps : Bool) (x y : Nat) (row : UInt8) (c col : Nat) : Bool :=
  isSet row col && landing? wraps (x + col) y == some c

theorem timesNamed_rowPixels (wraps : Bool) (x y py c : Nat) (row : UInt8)
    (hy : onAxis? wraps Screen.height y = some py) :
    Screen.timesNamed c (rowPixels wraps x py row) =
      ∑ col ∈ Finset.range 8, if covers wraps x y row c col then 1 else 0 := by
  rw [Screen.timesNamed, rowPixels, List.countP_filterMap, ← countP_range]
  refine List.countP_congr fun col _ => ?_
  simp only [covers, landing?_eq_bind, hy, Option.bind_some]
  cases isSet row col <;> cases onAxis? wraps Screen.width (x + col) <;> simp

theorem covers_of_off {wraps : Bool} {y : Nat} (hy : onAxis? wraps Screen.height y = none)
    (x : Nat) (row : UInt8) (c col : Nat) : covers wraps x y row c col = false := by
  simp [covers, landing?_eq_bind, hy]

theorem timesNamed_pixels_row (wraps : Bool) (x y c : Nat) (row : UInt8) :
    Screen.timesNamed c (pixels wraps x y [row]) =
      ∑ col ∈ Finset.range 8, if covers wraps x y row c col then 1 else 0 := by
  simp only [pixels, List.append_nil]
  split
  · rename_i py hy
    exact timesNamed_rowPixels wraps x y py c row hy
  · rename_i hy
    simp [covers_of_off hy, Screen.timesNamed]

theorem pixels_cons (wraps : Bool) (x y : Nat) (row : UInt8) (rows : List UInt8) :
    pixels wraps x y (row :: rows) = pixels wraps x y [row] ++ pixels wraps x (y + 1) rows := by
  simp [pixels]

theorem timesNamed_pixels (wraps : Bool) (x c : Nat) (rows : List UInt8) :
    ∀ y, Screen.timesNamed c (pixels wraps x y rows) =
      ∑ r ∈ Finset.range rows.length, ∑ col ∈ Finset.range 8,
        if covers wraps x (y + r) (rows[r]?.getD 0) c col then 1 else 0 := by
  induction rows with
  | nil => intro y; rfl
  | cons row rows ih =>
    intro y
    rw [pixels_cons, Screen.timesNamed, List.countP_append, ← Screen.timesNamed,
      ← Screen.timesNamed, timesNamed_pixels_row, ih, List.length_cons,
      Finset.sum_range_succ' _ rows.length, Nat.add_comm]
    simp [Nat.add_assoc, Nat.add_comm 1]

end Sprite

namespace Machine

/-- How many set bits of a sprite land on cell `c`: the sprite has `rows` rows, lies at `I`, and its
    top left corner is at column `left`, row `top`. -/
def hits (m : Machine) (left top rows c : Nat) : Nat :=
  ((Finset.range rows ×ˢ Finset.range 8).filter fun p =>
    (m.memory.read (m.index.toNat + p.1)).toNat.testBit (7 - p.2) = true ∧
      Sprite.landing? m.settings.wraps (left + p.2) (top + p.1) = some c).card

theorem timesNamed_sprite (m : Machine) (left top rows c : Nat) :
    Screen.timesNamed c
      (Sprite.pixels m.settings.wraps left top (m.memory.slice m.index.toNat rows)) =
      m.hits left top rows c := by
  rw [Sprite.timesNamed_pixels, Memory.length_slice, hits, Finset.card_filter, Finset.sum_product]
  refine Finset.sum_congr rfl fun r hr => Finset.sum_congr rfl fun col _ => ?_
  have hr := Finset.mem_range.1 hr
  simp [Sprite.covers, Sprite.isSet, Memory.slice, hr]

/-! ### Sprites that fit -/

/-- Points on one cell that differ by less than the size of the screen are one point. -/
theorem landing?_inj {wraps : Bool} {left top c : Nat} {p q : Nat × Nat}
    (hp : Sprite.landing? wraps (left + p.2) (top + p.1) = some c)
    (hq : Sprite.landing? wraps (left + q.2) (top + q.1) = some c)
    (hp1 : p.1 < 32) (hq1 : q.1 < 32) (hp2 : p.2 < 8) (hq2 : q.2 < 8) : p = q := by
  rw [Sprite.landing?_eq] at hp hq
  ext
  · grind
  · grind

theorem hits_le_one (m : Machine) {left top rows : Nat} (c : Nat) (h : rows ≤ 32) :
    m.hits left top rows c ≤ 1 := by
  rw [hits, Finset.card_le_one]
  intro p hp q hq
  simp only [Finset.mem_filter, Finset.mem_product, Finset.mem_range] at hp hq
  obtain ⟨⟨hp1, hp2⟩, -, hpc⟩ := hp
  obtain ⟨⟨hq1, hq2⟩, -, hqc⟩ := hq
  exact landing?_inj hpc hqc (by omega) (by omega) hp2 hq2

/-! ### Sprites that may cross the edge -/

theorem lt_of_landing? {wraps : Bool} {column row c : Nat}
    (h : Sprite.landing? wraps column row = some c) : c < 2048 := by
  rw [Sprite.landing?_eq] at h
  grind

/-- Without wrapping a point stays in its row and in its column. -/
theorem eq_of_landing?_clipped {column row c : Nat}
    (h : Sprite.landing? false column row = some c) : c % 64 = column ∧ c / 64 = row := by
  rw [Sprite.landing?_eq] at h
  grind

theorem exists_of_hits_ne_zero {m : Machine} {left top rows c : Nat}
    (h : m.hits left top rows c ≠ 0) : ∃ row < rows, ∃ col < 8,
      Sprite.landing? m.settings.wraps (left + col) (top + row) = some c := by
  obtain ⟨p, hp⟩ := Finset.card_ne_zero.1 h
  simp only [Finset.mem_filter, Finset.mem_product, Finset.mem_range] at hp
  exact ⟨p.1, hp.1.1, p.2, hp.1.2, hp.2.2⟩

/-- Drawing at given coordinates, with the flips counted in memory. -/
theorem drawSprite_eq (m : Machine) (left top rows : UInt8) :
    ∃ hit screen,
      m.drawSprite left top rows =
        .ok { m with screen, registers := m.registers.setFlag hit } ∧
      (∀ c, screen.litAt c =
        (m.screen.litAt c ^^ (m.hits left.toNat top.toNat rows.toNat c % 2 == 1))) ∧
      (hit = true ↔ ∃ c, (m.screen.litAt c = true ∧
        1 ≤ m.hits left.toNat top.toNat rows.toNat c) ∨
        2 ≤ m.hits left.toNat top.toNat rows.toNat c) := by
  have hin : ∀ p ∈ Sprite.pixels m.settings.wraps left.toNat top.toNat
      (m.memory.slice m.index.toNat rows.toNat), Screen.cell p.1 p.2 < 2048 :=
    fun p hp => Sprite.cell_lt (Sprite.mem_pixels hp).1 (Sprite.mem_pixels hp).2
  obtain ⟨hit, screen, htoggle, hcells, hhit⟩ := m.screen.toggleAll?_eq hin
  simp only [timesNamed_sprite] at hcells hhit
  exact ⟨hit, screen, by rw [drawSprite, htoggle]; rfl, hcells, hhit⟩

/-- Where no cell is flipped twice, a lit cell was met exactly when some cell went dark. -/
theorem met_iff_darkened {before after : Nat → Bool} {times : Nat → Nat} (hone : ∀ c, times c ≤ 1)
    (hafter : ∀ c, after c = (before c ^^ (times c % 2 == 1))) :
    (∃ c, (before c = true ∧ 1 ≤ times c) ∨ 2 ≤ times c) ↔
      ∃ c, before c = true ∧ after c = false := by
  refine exists_congr fun c => ?_
  have hc := hone c
  rcases Nat.lt_or_ge 0 (times c) with h | h
  · have htimes : times c = 1 := by omega
    simp [hafter, htimes]
  · have htimes : times c = 0 := by omega
    cases hb : before c <;> simp [hafter, htimes, hb]

/-- The draw instruction in closed form: a cell is inverted exactly when an odd number of the
    sprite's set bits land on it, and `VF` tells whether one of them met a lit cell. All else stays,
    and the corner is taken from the registers as they were before. A sprite that a word can encode
    has at most one bit on a cell, all bits land inside the screen, and clipped ones do not land
    elsewhere. -/
theorem effect_draw (m : Machine) (origin : UInt16) {x y : UInt8} (rows : UInt8)
    (hx : x.toNat < 16) (hy : y.toNat < 16) :
    let times := m.hits (m.register x).toNat (m.register y).toNat rows.toNat
    ∃ hit screen,
      m.effect origin (.draw x y rows) =
        .ok { m with screen, registers := m.registers.setFlag hit } ∧
      (∀ c, screen.litAt c = (m.screen.litAt c ^^ (times c % 2 == 1))) ∧
      (hit = true ↔ ∃ c, (m.screen.litAt c = true ∧ 1 ≤ times c) ∨ 2 ≤ times c) ∧
      (rows.toNat ≤ 15 → (∀ c, times c ≤ 1) ∧
        (hit = true ↔ ∃ c, m.screen.litAt c = true ∧ screen.litAt c = false)) ∧
      (∀ c, times c ≠ 0 → c < 2048) ∧
      (m.settings.wraps = false → ∀ c, times c ≠ 0 →
        ((m.register x).toNat ≤ c % 64 ∧ c % 64 < (m.register x).toNat + 8) ∧
        ((m.register y).toNat ≤ c / 64 ∧ c / 64 < (m.register y).toNat + rows.toNat)) := by
  intro times
  obtain ⟨hit, screen, hdraw, hcells, hhit⟩ := m.drawSprite_eq (m.register x) (m.register y) rows
  refine ⟨hit, screen, ?_, hcells, hhit, ?_, ?_, ?_⟩
  · rw [effect, get_eq m hx, get_eq m hy]
    exact hdraw
  · intro hrows
    have hone : ∀ c, times c ≤ 1 := fun c => m.hits_le_one c (by omega)
    exact ⟨hone, hhit.trans (met_iff_darkened hone hcells)⟩
  · intro c hc
    obtain ⟨row, -, col, -, hland⟩ := exists_of_hits_ne_zero hc
    exact lt_of_landing? hland
  · intro hwraps c hc
    obtain ⟨row, hrow, col, hcol, hland⟩ := exists_of_hits_ne_zero hc
    rw [hwraps] at hland
    obtain ⟨hc1, hc2⟩ := eq_of_landing?_clipped hland
    omega

/-- On a blank screen a sprite meets nothing, here with both coordinates in `VF` itself. -/
theorem effect_draw_blank :
    let m := blank {} (Vector.replicate 8 0)
    ∃ screen, m.effect 0x200 (.draw 0xF 0xF 5) =
      .ok { m with screen, registers := m.registers.setFlag false } := by
  intro m
  obtain ⟨hit, screen, hdraw, -, -, hfits, -⟩ :=
    m.effect_draw 0x200 (x := 0xF) (y := 0xF) 5 (by decide) (by decide)
  obtain ⟨-, hdark⟩ := hfits (by decide)
  refine ⟨screen, ?_⟩
  cases hit with
  | false => exact hdraw
  | true =>
    obtain ⟨c, hlit, -⟩ := hdark.1 rfl
    cases (Screen.litAt_blank c).symm.trans hlit

end Machine

end Chip8
