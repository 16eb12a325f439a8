import Chip8.Proofs.Execution

/-! # Footprints

    Every instruction looks at few parts of the machine and changes few. Parts that it does neither
    to can be exchanged for those of another machine, before the instruction or after it: they do
    not matter to it. And parts that it does not change are the same after it. Both are said once
    for all instructions, by listing the parts. -/

namespace Chip8

/-- The parts of a machine. -/
inductive Part where
  | settings | memory | registers | index | pc | stack | delay | sound | screen | keypad | steps
  | generator
  deriving DecidableEq, Repr

namespace Instruction

/-- The parts that an instruction changes. -/
def writes : Instruction → List Part
  | .clearScreen => [.screen]
  | .ret | .call _ => [.pc, .stack]
  | .jump _ | .jumpIndexed _ | .skipEqConst .. | .skipNeConst .. | .skipEq .. | .skipNe ..
  | .skipKeyDown _ | .skipKeyUp _ => [.pc]
  | .setConst .. | .addConst .. | .move .. | .or .. | .and .. | .xor .. | .add .. | .sub ..
  | .shiftRight _ | .subFrom .. | .shiftLeft _ | .readDelay _ | .load _ => [.registers]
  | .random .. => [.registers, .generator]
  | .draw .. => [.screen, .registers]
  | .setIndex _ | .addIndex _ | .glyph _ => [.index]
  | .awaitKey _ => [.keypad]
  | .setDelay _ => [.delay]
  | .setSound _ => [.sound]
  | .decimal _ | .store _ => [.memory]

/-- The parts that an instruction looks at, but for those that it changes. -/
def reads : Instruction → List Part
  | .clearScreen | .ret | .jump _ | .call _ | .setConst .. | .addConst .. | .move .. | .or ..
  | .and .. | .xor .. | .add .. | .sub .. | .shiftRight _ | .subFrom .. | .shiftLeft _
  | .random .. | .setIndex _ | .awaitKey _ => []
  | .skipEqConst .. | .skipNeConst .. | .skipEq .. | .skipNe .. | .setDelay _ | .setSound _
  | .addIndex _ | .glyph _ => [.registers]
  | .skipKeyDown _ | .skipKeyUp _ => [.registers, .keypad]
  | .jumpIndexed _ => [.registers, .settings]
  | .draw .. => [.settings, .memory, .index]
  | .readDelay _ => [.delay]
  | .decimal _ | .store _ => [.registers, .index]
  | .load _ => [.memory, .index]

/-- Whether a part does not matter to an instruction, nor the instruction to the part. -/
def Avoids (i : Instruction) (S : Part → Bool) : Prop := ∀ p ∈ i.reads ++ i.writes, S p = false

end Instruction

theorem Memory.read_store_of_ne {m : Memory} {bytes : List UInt8} {a b : Nat}
    (h : ∀ k < bytes.length, (a + k) % 4096 ≠ b % 4096) :
    (m.store a bytes).read b = m.read b := by
  induction bytes generalizing m a with
  | nil => rfl
  | cons v bytes ih =>
    have hfirst : a % 4096 ≠ b % 4096 := h 0 (Nat.succ_pos _)
    rw [store, ih fun k hk => ?_, read_write, if_neg hfirst]
    have hne := h (k + 1) (by simpa using hk)
    rwa [show a + 1 + k = a + (k + 1) by omega]

namespace Machine

/-- The addresses that an instruction writes to. -/
def written (m : Machine) : Instruction → List Nat
  | .decimal _ => (List.range 3).map (m.index.toNat + ·)
  | .store x => (List.range (x.toNat + 1)).map (m.index.toNat + ·)
  | _ => []

/-- The machine with the parts in `S` taken from `n`. -/
def graft (m : Machine) (S : Part → Bool) (n : Machine) : Machine where
  settings := if S .settings then n.settings else m.settings
  memory := if S .memory then n.memory else m.memory
  registers := if S .registers then n.registers else m.registers
  index := if S .index then n.index else m.index
  pc := if S .pc then n.pc else m.pc
  stack := if S .stack then n.stack else m.stack
  delay := if S .delay then n.delay else m.delay
  sound := if S .sound then n.sound else m.sound
  screen := if S .screen then n.screen else m.screen
  keypad := if S .keypad then n.keypad else m.keypad
  steps := if S .steps then n.steps else m.steps
  generator := if S .generator then n.generator else m.generator

variable {m n after : Machine} {S : Part → Bool} {origin origin' : UInt16} {i : Instruction}

/-! ### Parts that do not matter -/

theorem keypad_graft (h : S .keypad = false) : (m.graft S n).keypad = m.keypad := by
  simp [graft, h]

theorem get_graft (h : S .registers = false) (x : UInt8) : (m.graft S n).get x = m.get x := by
  simp [get, graft, h]

theorem set_graft (h : S .registers = false) (x v : UInt8) :
    (m.graft S n).set x v = (·.graft S n) <$> m.set x v := by
  simp [set, graft, h]

theorem setWithFlag_graft (h : S .registers = false) (x v : UInt8) (on : Bool) :
    (m.graft S n).setWithFlag x v on = (·.graft S n) <$> m.setWithFlag x v on := by
  simp [setWithFlag, set, setFlag, graft, h]

theorem skipIf_graft (h : S .pc = false) (c : Bool) :
    (m.graft S n).skipIf c = (m.skipIf c).graft S n := by
  cases c <;> simp [skipIf, graft, h]

theorem drawSprite_graft (hsettings : S .settings = false) (hmemory : S .memory = false)
    (hindex : S .index = false) (hscreen : S .screen = false) (hregisters : S .registers = false)
    (x y rows : UInt8) :
    (m.graft S n).drawSprite x y rows = (·.graft S n) <$> m.drawSprite x y rows := by
  simp [drawSprite, setFlag, graft, hsettings, hmemory, hindex, hscreen, hregisters]

theorem effect_ret_eq_ok (h : m.effect origin .ret = .ok after) :
    m.stack.pointer ≠ 0 ∧ ∃ a, m.stack.top? = some a ∧
      after = { m with pc := a, stack := m.stack.drop } := by
  cases changed_of_effect h with
  | plain hi => cases hi
  | ret hpointer htop => exact ⟨hpointer, _, htop, rfl⟩

theorem effect_call_eq_ok {target : UInt16} (h : m.effect origin (.call target) = .ok after) :
    ∃ stack, m.stack.push? m.pc = some stack ∧ after = { m with pc := target, stack } := by
  cases changed_of_effect h with
  | plain hi => cases hi
  | call hpush => exact ⟨_, hpush, rfl⟩

theorem effect_graft_of_not_mem (hi : i.Avoids S) (hstack : .stack ∉ i.writes) :
    (m.graft S n).effect origin' i = (·.graft S n) <$> m.effect origin i := by
  simp only [Instruction.Avoids] at hi
  cases i with
  | ret | call => simp [Instruction.writes] at hstack
  | setConst | addConst | move | or | and | xor | add | sub | shiftRight | subFrom | shiftLeft
  | skipEqConst | skipNeConst | skipEq | skipNe | skipKeyDown | skipKeyUp | draw =>
    simp only [Instruction.reads, Instruction.writes, List.cons_append, List.nil_append,
      List.forall_mem_cons] at hi
    simp [effect, hi, get_graft, set_graft, setWithFlag_graft, skipIf_graft, drawSprite_graft,
      keypad_graft]
  | _ =>
    -- these set their part themselves, with what they read
    simp only [Instruction.reads, Instruction.writes, List.cons_append, List.nil_append,
      List.forall_mem_cons] at hi
    simp only [effect, hi, get_graft, set, map_bind, map_pure]
    simp [graft, hi]

/-- Parts that an instruction avoids can be exchanged before it or after it. -/
theorem effect_graft (hi : i.Avoids S) (h : m.effect origin i = .ok after) :
    (m.graft S n).effect origin' i = .ok (after.graft S n) := by
  cases i with
  | ret =>
    simp only [Instruction.Avoids, Instruction.reads, Instruction.writes, List.nil_append,
      List.forall_mem_cons] at hi
    obtain ⟨hpointer, a, htop, rfl⟩ := effect_ret_eq_ok h
    simp [effect, graft, hi, hpointer, htop, checked]
  | call =>
    simp only [Instruction.Avoids, Instruction.reads, Instruction.writes, List.nil_append,
      List.forall_mem_cons] at hi
    obtain ⟨stack, hpush, rfl⟩ := effect_call_eq_ok h
    simp only [effect, graft, hi, Bool.false_eq_true, if_false, hpush]
    rfl
  | _ =>
    rw [effect_graft_of_not_mem hi (by simp [Instruction.writes]), h]
    rfl

/-! ### Parts that stay -/

theorem map_graft_set (h : S .registers = false) (x v : UInt8) :
    (·.graft S m) <$> m.set x v = m.set x v := by
  simp [set, graft, h]

theorem map_graft_setWithFlag (h : S .registers = false) (x v : UInt8) (on : Bool) :
    (·.graft S m) <$> m.setWithFlag x v on = m.setWithFlag x v on := by
  simp [setWithFlag, set, setFlag, graft, h]

theorem graft_skipIf (h : S .pc = false) (c : Bool) : (m.skipIf c).graft S m = m.skipIf c := by
  cases c <;> simp [skipIf, graft, h]

theorem map_graft_drawSprite (hscreen : S .screen = false) (hregisters : S .registers = false)
    (x y rows : UInt8) : (·.graft S m) <$> m.drawSprite x y rows = m.drawSprite x y rows := by
  simp [drawSprite, setFlag, graft, hscreen, hregisters]

/-- Parts that an instruction does not change are the same after it. -/
theorem graft_of_effect (hi : ∀ p ∈ i.writes, S p = false) (h : m.effect origin i = .ok after) :
    after.graft S m = after := by
  have hmap : (·.graft S m) <$> m.effect origin i = m.effect origin i := by
    cases i with
    | ret =>
      simp only [Instruction.writes, List.forall_mem_cons] at hi
      obtain ⟨hpointer, a, htop, -⟩ := effect_ret_eq_ok h
      simp [effect, hpointer, htop, checked, graft, hi]
    | call =>
      simp only [Instruction.writes, List.forall_mem_cons] at hi
      obtain ⟨stack, hpush, -⟩ := effect_call_eq_ok h
      simp [effect, hpush, graft, hi]
    | setConst | addConst | move | or | and | xor | add | sub | shiftRight | subFrom | shiftLeft
    | skipEqConst | skipNeConst | skipEq | skipNe | skipKeyDown | skipKeyUp | readDelay | draw =>
      simp only [Instruction.writes, List.forall_mem_cons] at hi
      simp [effect, hi, map_graft_set, map_graft_setWithFlag, graft_skipIf, map_graft_drawSprite]
    | _ =>
      simp only [Instruction.writes, List.forall_mem_cons] at hi
      simp [effect, set, graft, hi]
  rw [h] at hmap
  exact Except.ok.inj hmap

/-- A memory cell that an instruction does not write to is the same after it. -/
theorem read_of_effect {b : Nat} (h : m.effect origin i = .ok after)
    (hb : ∀ a ∈ m.written i, a % 4096 ≠ b % 4096) : after.memory.read b = m.memory.read b := by
  cases i with
  | decimal x =>
    obtain ⟨v, -, hstore⟩ := exists_of_bind_eq_ok h
    cases hstore
    refine Memory.read_store_of_ne fun k hk => hb _ (List.mem_map.2 ⟨k, List.mem_range.2 ?_, rfl⟩)
    simpa [decimalDigits] using hk
  | store x =>
    obtain ⟨bytes, hbytes, hstore⟩ := exists_of_bind_eq_ok h
    cases hstore
    refine Memory.read_store_of_ne fun k hk => hb _ (List.mem_map.2 ⟨k, List.mem_range.2 ?_, rfl⟩)
    by_cases hx : x.toNat < 16
    · rw [upTo?_of_lt _ hx] at hbytes
      cases hbytes
      simp only [List.length_take] at hk
      omega
    · rw [Registers.upTo?, if_neg hx] at hbytes
      cases hbytes
  | _ =>
    have hgraft := graft_of_effect (S := (· == .memory)) (by simp [Instruction.writes]) h
    rw [← hgraft]
    rfl

end Machine

end Chip8
