import Chip8.Proofs.Locations

/-! # The order of draws

    A draw looks at memory, at `I` and at the registers of its corner, and changes none of them
    unless the corner is in `VF`. So each draw of a list finds all it looks at as it was in the
    beginning, and flips a cell as often as it would on the first machine. What a cell becomes
    depends only on the number of all its flips, which is a sum: the order of the draws does not
    matter, and a list that is drawn twice leaves the screen as it was. -/

namespace Chip8

/-- A draw whose corner is not taken from `VF`. -/
def Instruction.IsDraw : Instruction → Prop
  | .draw x y _ => x.toNat ≤ 14 ∧ y.toNat ≤ 14
  | _ => False

namespace Machine

/-- How often an instruction flips cell `c`. -/
def flipsBy (m : Machine) (c : Nat) : Instruction → Nat
  | .draw x y rows => m.hits (m.register x).toNat (m.register y).toNat rows.toNat c
  | _ => 0

/-- How often a list of instructions flips cell `c`, if each of them finds the same machine. -/
def flips (m : Machine) (c : Nat) (is : List Instruction) : Nat := (is.map (m.flipsBy c)).sum

/-- Nothing but the screen and `VF` is different. -/
def DrawnOver (m n : Machine) : Prop := ∀ l, l ∉ [Location.screen, .register 15] → m.SameAt n l

variable {m n p : Machine} {i : Instruction} {is is' : List Instruction} {x : UInt8}

/-! ### What draws look at -/

theorem SameAt.trans {l : Location} (h : m.SameAt n l) (h' : n.SameAt p l) : m.SameAt p l := by
  cases l <;> exact Eq.trans h' h

theorem DrawnOver.refl (m : Machine) : m.DrawnOver m := fun l _ => sameAt_refl m l

theorem DrawnOver.trans (h : m.DrawnOver n) (h' : n.DrawnOver p) : m.DrawnOver p :=
  fun l hl => (h l hl).trans (h' l hl)

theorem DrawnOver.register (h : m.DrawnOver n) (hx : x.toNat ≤ 14) :
    n.register x = m.register x := by
  have hsize : x.toNat < 16 := by omega
  have hne : x.toNat ≠ 15 := by omega
  have hvalue := h (.register x.toNat) (by simp [hne])
  simpa [SameAt, Machine.register, Registers.getLow, hsize, Nat.mod_eq_of_lt hsize] using hvalue

/-- A draw flips the same cells on a machine that others have drawn on. -/
theorem DrawnOver.flipsBy (h : m.DrawnOver n) (hi : i.IsDraw) (c : Nat) :
    n.flipsBy c i = m.flipsBy c i := by
  cases i with
  | draw x y rows =>
    have hread : ∀ a, n.memory.read a = m.memory.read a :=
      fun a => read_of_sameAt (h (.memory (a % 4096)) (by simp))
    have hindex : n.index = m.index := h .index (by simp)
    have hsettings : n.settings = m.settings := h .settings (by simp)
    simp only [Machine.flipsBy, hits, h.register hi.1, h.register hi.2, hread, hindex, hsettings]
  | _ => rfl

theorem DrawnOver.flips (h : m.DrawnOver n) (his : ∀ i ∈ is, i.IsDraw) (c : Nat) :
    n.flips c is = m.flips c is :=
  congrArg List.sum (List.map_congr_left fun i hi => h.flipsBy (his i hi) c)

/-! ### One draw, and lists of them -/

theorem execute_of_isDraw (m : Machine) (hi : i.IsDraw) :
    (m.execute i).verdict = .done ∧ m.DrawnOver (m.execute i).machine ∧
      ∀ c, (m.execute i).machine.screen.litAt c =
        (m.screen.litAt c ^^ (m.flipsBy c i % 2 == 1)) := by
  cases i with
  | draw x y rows =>
    have hx : x.toNat < 16 := Nat.lt_of_le_of_lt hi.1 (by decide)
    have hy : y.toNat < 16 := Nat.lt_of_le_of_lt hi.2 (by decide)
    obtain ⟨hit, screen, hdraw, hcells, -⟩ := m.drawSprite_eq (m.register x) (m.register y) rows
    have heffect : m.effect m.pc (.draw x y rows) =
        .ok { m with screen, registers := m.registers.setFlag hit } := by
      rw [effect, get_eq m hx, get_eq m hy]
      exact hdraw
    rw [execute, heffect]
    exact ⟨rfl, fun l hl => sameAt_of_effect heffect hl, hcells⟩
  | _ => exact hi.elim

theorem executeAll_of_isDraw (m : Machine) (his : ∀ i ∈ is, i.IsDraw) :
    (m.executeAll is).verdict = .done ∧ m.DrawnOver (m.executeAll is).machine ∧
      ∀ c, (m.executeAll is).machine.screen.litAt c =
        (m.screen.litAt c ^^ (m.flips c is % 2 == 1)) := by
  induction is generalizing m with
  | nil => exact ⟨rfl, .refl m, fun c => by simp [executeAll, flips]⟩
  | cons i is ih =>
    obtain ⟨hi, his⟩ := List.forall_mem_cons.1 his
    obtain ⟨hdone, hover, hcells⟩ := m.execute_of_isDraw hi
    obtain ⟨hdone', hover', hcells'⟩ := ih (m.execute i).machine his
    rw [executeAll_cons, if_pos hdone]
    refine ⟨hdone', hover.trans hover', fun c => ?_⟩
    rw [hcells', hcells, hover.flips his, Screen.xor_odd_add]
    rfl

/-! ### Order and repetition -/

theorem flips_perm (h : is.Perm is') (m : Machine) (c : Nat) : m.flips c is = m.flips c is' :=
  (h.map _).sum_nat

theorem flips_append_self (m : Machine) (c : Nat) (is : List Instruction) :
    m.flips c (is ++ is) = 2 * m.flips c is := by
  rw [flips, List.map_append, List.sum_append, Nat.two_mul]
  rfl

/-- Nothing but the screen and `VF` changes, not even in between. -/
theorem sameAt_take (m : Machine) (his : ∀ i ∈ is, i.IsDraw) (k : Nat) (l : Location)
    (hscreen : l ≠ .screen) (hflag : l ≠ .register 15) :
    m.SameAt (m.executeAll (is.take k)).machine l := by
  have hover := (m.executeAll_of_isDraw fun i hi => his i (List.mem_of_mem_take (i := k) hi)).2.1
  exact hover l (by simp [hscreen, hflag])

/-- Draws commute and undo themselves. A list of draws of any height, their corners not in `VF`, is
    carried out in whatever order, and every order leads to the same screen; the list twice in a
    row, as one list or as two, leaves the screen as it was. Nothing but the screen and `VF` ever
    changes, so memory, `I` and all other registers stay. -/
theorem draws_commute_undo (m : Machine) (his : ∀ i ∈ is, i.IsDraw) :
    (∀ is', is.Perm is' → (m.executeAll is').verdict = .done ∧
      (m.executeAll is').machine.screen = (m.executeAll is).machine.screen ∧
      ∀ k l, l ≠ .screen → l ≠ .register 15 → m.SameAt (m.executeAll (is'.take k)).machine l) ∧
    (m.executeAll (is ++ is)).verdict = .done ∧
    (m.executeAll (is ++ is)).machine.screen = m.screen ∧
    ((m.executeAll is).machine.executeAll is).machine.screen = m.screen ∧
    ∀ k l, l ≠ .screen → l ≠ .register 15 →
      m.SameAt (m.executeAll ((is ++ is).take k)).machine l := by
  have htwice : ∀ i ∈ is ++ is, i.IsDraw := fun i hi => his i (by simpa using hi)
  obtain ⟨-, hover, hcells⟩ := m.executeAll_of_isDraw his
  obtain ⟨hdone, -, hboth⟩ := m.executeAll_of_isDraw htwice
  refine ⟨fun is' hperm => ?_, hdone, Screen.ext_litAt fun c => ?_, Screen.ext_litAt fun c => ?_,
    m.sameAt_take htwice⟩
  · have his' : ∀ i ∈ is', i.IsDraw := fun i hi => his i (hperm.mem_iff.2 hi)
    obtain ⟨hdone', -, hcells'⟩ := m.executeAll_of_isDraw his'
    refine ⟨hdone', Screen.ext_litAt fun c => ?_, m.sameAt_take his'⟩
    rw [hcells', hcells, flips_perm hperm]
  · rw [hboth, flips_append_self]
    simp
  · obtain ⟨-, -, hagain⟩ := (m.executeAll is).machine.executeAll_of_isDraw his
    rw [hagain, hover.flips his, hcells, Screen.xor_odd_add, ← Nat.two_mul]
    simp

/-- A sprite of 200 rows that wraps around and meets itself, and one that overlaps it. -/
theorem draws_commute_undo_tall :
    let m := blank { wraps := true } (Vector.replicate 8 0)
    let is : List Instruction := [.draw 0 1 200, .draw 2 2 5]
    (m.executeAll is.reverse).machine.screen = (m.executeAll is).machine.screen ∧
      (m.executeAll (is ++ is)).machine.screen = m.screen ∧
      (m.executeAll (is ++ is)).machine.memory.cells[0]? = m.memory.cells[0]? := by
  intro m is
  have his : ∀ i ∈ is, i.IsDraw := by simp [is, Instruction.IsDraw]
  obtain ⟨hperm, -, htwice, -, hstays⟩ := m.draws_commute_undo his
  obtain ⟨-, hscreen, -⟩ := hperm is.reverse is.reverse_perm.symm
  exact ⟨hscreen, htwice, hstays 4 (.memory 0) nofun nofun⟩

end Machine

end Chip8
