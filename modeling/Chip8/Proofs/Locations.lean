import Chip8.Proofs.Footprint
import Chip8.Proofs.Runs

/-! # Locations

    Footprints once more, place by place. A machine keeps what it has at locations: the cells of
    memory, the registers, the slots of the stack, the keys, and one for everything else. An
    instruction changes nothing outside of a short list of locations, which depends on the machine
    only through `I` and the stack pointer. A part that is not written at all stays as a whole, so
    what is left to show is about the tables: which of their entries an instruction leaves alone.

    Nothing but `decimal` and `store` writes to memory, and a load leaves the bottom of memory
    alone. So over a whole run the font stays as it is, until one of the two reaches it. -/

namespace Chip8

/-- A place where a machine keeps something. A number past the end of its table is no place at all,
    and nothing is ever changed there. -/
inductive Location where
  | memory (a : Nat)
  | register (k : Nat)
  | slot (k : Nat)
  | key (k : Nat)
  | settings | index | pc | pointer | delay | sound | screen | awaited | steps | generator
  deriving DecidableEq, Repr

/-- The part that a location belongs to. -/
def Location.part : Location → Part
  | .memory _ => .memory
  | .register _ => .registers
  | .slot _ | .pointer => .stack
  | .key _ | .awaited => .keypad
  | .settings => .settings
  | .index => .index
  | .pc => .pc
  | .delay => .delay
  | .sound => .sound
  | .screen => .screen
  | .steps => .steps
  | .generator => .generator

/-- The location of a part that is not in a table, if there is one. -/
def Part.single? : Part → Option Location
  | .memory | .registers => none
  | .stack => some .pointer
  | .keypad => some .awaited
  | .settings => some .settings
  | .index => some .index
  | .pc => some .pc
  | .delay => some .delay
  | .sound => some .sound
  | .screen => some .screen
  | .steps => some .steps
  | .generator => some .generator

namespace Machine

/-- Two machines have the same at a location. -/
def SameAt (m n : Machine) : Location → Prop
  | .memory a => n.memory.cells[a]? = m.memory.cells[a]?
  | .register k => n.registers.values[k]? = m.registers.values[k]?
  | .slot k => n.stack.slots[k]? = m.stack.slots[k]?
  | .key k => n.keypad.pressed[k]? = m.keypad.pressed[k]?
  | .settings => n.settings = m.settings
  | .index => n.index = m.index
  | .pc => n.pc = m.pc
  | .pointer => n.stack.pointer = m.stack.pointer
  | .delay => n.delay = m.delay
  | .sound => n.sound = m.sound
  | .screen => n.screen = m.screen
  | .awaited => n.keypad.awaited = m.keypad.awaited
  | .steps => n.steps = m.steps
  | .generator => n.generator = m.generator

/-- The locations that an instruction may change. -/
def footprint (m : Machine) (i : Instruction) : List Location :=
  match i with
  | .clearScreen => [.screen]
  | .ret => [.pc, .pointer]
  | .call _ => [.pc, .pointer, .slot (m.stack.pointer.toNat + 1)]
  | .jump _ | .jumpIndexed _ | .skipEqConst .. | .skipNeConst .. | .skipEq .. | .skipNe ..
  | .skipKeyDown _ | .skipKeyUp _ => [.pc]
  | .setConst x _ | .addConst x _ | .move x _ | .or x _ | .and x _ | .xor x _ | .readDelay x =>
    [.register x.toNat]
  | .add x _ | .sub x _ | .shiftRight x | .subFrom x _ | .shiftLeft x =>
    [.register x.toNat, .register 15]
  | .random x _ => [.register x.toNat, .generator]
  | .draw .. => [.screen, .register 15]
  | .setIndex _ | .addIndex _ | .glyph _ => [.index]
  | .awaitKey _ => [.awaited]
  | .setDelay _ => [.delay]
  | .setSound _ => [.sound]
  | .decimal _ | .store _ => (m.written i).map fun a => .memory (a % 4096)
  | .load x => (List.range (x.toNat + 1)).map .register

variable {m n after : Machine} {i : Instruction} {origin : UInt16} {x v : UInt8} {l : Location}

theorem eq_of_getElem? {α : Type} {size : Nat} {u v : Vector α size}
    (h : ∀ k : Nat, u[k]? = v[k]?) : u = v :=
  Vector.ext fun k hk => by simpa [hk] using h k

/-- Locations make up the machine. -/
theorem eq_of_sameAt (h : ∀ l, m.SameAt n l) : n = m := by
  have hcells : n.memory.cells = m.memory.cells := eq_of_getElem? fun a => h (.memory a)
  have hvalues : n.registers.values = m.registers.values :=
    eq_of_getElem? fun k => h (.register k)
  have hslots : n.stack.slots = m.stack.slots := eq_of_getElem? fun k => h (.slot k)
  have hpressed : n.keypad.pressed = m.keypad.pressed := eq_of_getElem? fun k => h (.key k)
  rcases n with ⟨_, ⟨_⟩, ⟨_⟩, _, _, ⟨_, _⟩, _, _, _, ⟨_, _⟩, _, _⟩
  rcases m with ⟨_, ⟨_⟩, ⟨_⟩, _, _, ⟨_, _⟩, _, _, _, ⟨_, _⟩, _, _⟩
  cases hcells
  cases hvalues
  cases hslots
  cases hpressed
  cases h .settings
  cases h .index
  cases h .pc
  cases h .pointer
  cases h .delay
  cases h .sound
  cases h .screen
  cases h .awaited
  cases h .steps
  cases h .generator
  rfl

theorem sameAt_refl (m : Machine) (l : Location) : m.SameAt m l := by
  cases l <;> rfl

theorem read_of_sameAt {a : Nat} (h : m.SameAt n (.memory (a % 4096))) :
    n.memory.read a = m.memory.read a := by
  have ha : a % 4096 < 4096 := Nat.mod_lt a (by decide)
  rw [SameAt, Vector.getElem?_eq_getElem ha, Vector.getElem?_eq_getElem ha] at h
  exact Option.some.inj h

theorem sameAt_graft {S : Part → Bool} (h : S l.part = true) : m.SameAt (n.graft S m) l := by
  cases l <;> simp_all [SameAt, graft, Location.part]

/-- A part that is not written stays as a whole. -/
theorem sameAt_of_not_mem_writes (h : m.effect origin i = .ok after) (hl : l.part ∉ i.writes) :
    m.SameAt after l := by
  have hgraft := graft_of_effect (S := (· == l.part)) (fun p hp => ?_) h
  · rw [← hgraft]
    exact sameAt_graft (beq_self_eq_true _)
  · rw [beq_eq_false_iff_ne]
    rintro rfl
    exact hl hp

/-! ### Entries of tables -/

theorem value_of_set {k : Nat} (h : m.set x v = .ok after) (hk : k ≠ x.toNat) :
    after.registers.values[k]? = m.registers.values[k]? := by
  obtain ⟨registers, hset, hafter⟩ := exists_of_bind_eq_ok h
  cases hafter
  unfold Registers.set? at hset
  split at hset
  · rename_i hx
    cases hset
    exact Vector.getElem?_set_ne hx hk.symm
  · cases hset

theorem value_of_setFlag {k : Nat} (on : Bool) (hk : k ≠ 15) :
    (m.setFlag on).registers.values[k]? = m.registers.values[k]? :=
  Vector.getElem?_set_ne (by decide) hk.symm

theorem value_of_setWithFlag {k : Nat} {on : Bool} (h : m.setWithFlag x v on = .ok after)
    (hk : k ≠ x.toNat) (hflag : k ≠ 15) :
    after.registers.values[k]? = m.registers.values[k]? := by
  obtain ⟨n, hset, hafter⟩ := exists_of_bind_eq_ok h
  cases hafter
  rw [value_of_setFlag on hflag, value_of_set hset hk]

theorem value_of_drawSprite {k : Nat} {y rows : UInt8} (h : m.drawSprite x y rows = .ok after)
    (hk : k ≠ 15) : after.registers.values[k]? = m.registers.values[k]? := by
  obtain ⟨⟨hit, screen⟩, -, hafter⟩ := exists_of_bind_eq_ok h
  cases hafter
  exact value_of_setFlag hit hk

theorem value_of_overwrite? {r s : Registers} {bytes : List UInt8} {k : Nat}
    (h : r.overwrite? bytes = some s) (hk : bytes.length ≤ k) : s.values[k]? = r.values[k]? := by
  unfold Registers.overwrite? at h
  split at h
  · obtain rfl := Option.some.inj h
    by_cases hsize : k < 16
    · rw [Vector.getElem?_eq_getElem hsize, Vector.getElem?_eq_getElem hsize, Vector.getElem_ofFn,
        List.getElem?_eq_none hk]
      rfl
    · rw [Vector.getElem?_eq_none (Nat.le_of_not_lt hsize),
        Vector.getElem?_eq_none (Nat.le_of_not_lt hsize)]
  · cases h

theorem value_of_effect {k : Nat} (h : m.effect origin i = .ok after)
    (hk : .register k ∉ m.footprint i) :
    after.registers.values[k]? = m.registers.values[k]? := by
  cases i with
  | setConst | readDelay => exact value_of_set h (by simpa [footprint] using hk)
  | addConst | move =>
    obtain ⟨a, -, hset⟩ := exists_of_bind_eq_ok h
    exact value_of_set hset (by simpa [footprint] using hk)
  | or | and | xor =>
    obtain ⟨a, -, hb⟩ := exists_of_bind_eq_ok h
    obtain ⟨b, -, hset⟩ := exists_of_bind_eq_ok hb
    exact value_of_set hset (by simpa [footprint] using hk)
  | add | sub | subFrom =>
    obtain ⟨a, -, hb⟩ := exists_of_bind_eq_ok h
    obtain ⟨b, -, hset⟩ := exists_of_bind_eq_ok hb
    simp only [footprint, List.mem_cons, Location.register.injEq, not_or] at hk
    exact value_of_setWithFlag hset hk.1 hk.2.1
  | shiftRight | shiftLeft =>
    obtain ⟨a, -, hset⟩ := exists_of_bind_eq_ok h
    simp only [footprint, List.mem_cons, Location.register.injEq, not_or] at hk
    exact value_of_setWithFlag hset hk.1 hk.2.1
  | random x mask =>
    have hset : { m with generator := m.generator.next.2 }.set x (m.generator.next.1 &&& mask) =
        .ok after := h
    simp only [footprint, List.mem_cons, Location.register.injEq, not_or] at hk
    have hvalue := value_of_set hset hk.1
    exact hvalue
  | draw =>
    obtain ⟨a, -, hb⟩ := exists_of_bind_eq_ok h
    obtain ⟨b, -, hdraw⟩ := exists_of_bind_eq_ok hb
    exact value_of_drawSprite hdraw (by simpa [footprint] using hk)
  | load x =>
    obtain ⟨registers, hload, hafter⟩ := exists_of_bind_eq_ok h
    cases hafter
    refine value_of_overwrite? (eq_some_of_checked hload) ?_
    rw [Memory.length_slice]
    by_contra hlt
    exact hk (List.mem_map.2 ⟨k, List.mem_range.2 (Nat.lt_of_not_le hlt), rfl⟩)
  | _ =>
    exact sameAt_of_not_mem_writes (l := .register k) h
      (by simp [Instruction.writes, Location.part])

theorem slot_of_effect {k : Nat} (h : m.effect origin i = .ok after)
    (hk : .slot k ∉ m.footprint i) : after.stack.slots[k]? = m.stack.slots[k]? := by
  cases i with
  | ret =>
    obtain ⟨-, a, -, rfl⟩ := effect_ret_eq_ok h
    rfl
  | call target =>
    obtain ⟨stack, hpush, rfl⟩ := effect_call_eq_ok h
    unfold CallStack.push? at hpush
    split at hpush
    · rename_i hp
      cases hpush
      simp only [footprint, List.mem_cons, Location.slot.injEq, reduceCtorEq, false_or,
        List.not_mem_nil, or_false] at hk
      exact Vector.getElem?_set_ne hp (Ne.symm hk)
    · cases hpush
  | _ =>
    exact sameAt_of_not_mem_writes (l := .slot k) h
      (by simp [Instruction.writes, Location.part])

theorem cell_of_effect {a : Nat} (h : m.effect origin i = .ok after)
    (ha : .memory a ∉ m.footprint i) : after.memory.cells[a]? = m.memory.cells[a]? := by
  by_cases hsize : a < 4096
  · have hread : after.memory.read a = m.memory.read a := by
      refine read_of_effect h fun b hb hba => ha ?_
      have hmem : .memory (b % 4096) ∈ m.footprint i := by
        cases i with
        | decimal | store => exact List.mem_map.2 ⟨b, hb, rfl⟩
        | _ => cases hb
      rwa [hba, Nat.mod_eq_of_lt hsize] at hmem
    simpa [Memory.read, Nat.mod_eq_of_lt hsize, hsize] using hread
  · rw [Vector.getElem?_eq_none (Nat.le_of_not_lt hsize),
      Vector.getElem?_eq_none (Nat.le_of_not_lt hsize)]

/-! ### All locations -/

/-- An instruction that writes to a part has what is single there in its footprint. -/
theorem mem_footprint_of_single? (hw : l.part ∈ i.writes) (hl : l.part.single? = some l) :
    l ∈ m.footprint i := by
  have hall : ∀ p ∈ i.writes, ∀ l, p.single? = some l → l ∈ m.footprint i := by
    cases i <;> simp [Instruction.writes, Part.single?, footprint]
  exact hall _ hw l hl

/-- An instruction that is carried out changes nothing outside of its footprint. -/
theorem sameAt_of_effect (h : m.effect origin i = .ok after) (hl : l ∉ m.footprint i) :
    m.SameAt after l := by
  by_cases hw : l.part ∈ i.writes
  · cases l with
    | memory a => exact cell_of_effect h hl
    | register k => exact value_of_effect h hl
    | slot k => exact slot_of_effect h hl
    | key k =>
      cases i with
      | awaitKey x =>
        cases h
        rfl
      | _ => simp [Instruction.writes, Location.part] at hw
    | _ => exact (hl (mem_footprint_of_single? hw rfl)).elim
  · exact sameAt_of_not_mem_writes h hw

/-! ### The bottom of memory -/

/-- What is not part of the instructions' work leaves the bottom of memory alone. -/
theorem read_perform_outside (m : Machine) {op : Operation} (hop : op.isOutside = true) {a : Nat}
    (ha : a < Memory.programStart) : (m.perform op).machine.memory.read a = m.memory.read a := by
  cases op with
  | press key =>
    obtain ⟨registers, keypad, hafter⟩ := m.exists_press key
    rw [perform, hafter]
  | release key =>
    obtain ⟨keypad, hafter⟩ := m.exists_release key
    rw [perform, hafter]
  | load rom =>
    have hloaded := loaded m rom
    rw [perform]
    generalize m.load rom = o at hloaded
    cases hloaded with
    | refused => rfl
    | done _ hmemory =>
      have hsize : a < 4096 := Nat.lt_trans ha (by decide)
      rw [hmemory, Memory.read_withProgram _ _ hsize, if_pos ha]
  | step | execute | executeAll => cases hop

/-- A byte at the bottom of memory stays as long as no instruction writes to it. -/
theorem keptByRuns_read {a : Nat} (ha : a < Memory.programStart) :
    KeptByRuns fun m l n =>
      (∀ p ∈ l, ∀ b ∈ p.1.written p.2, b % 4096 ≠ a % 4096) →
        n.memory.read a = m.memory.read a where
  refl _ _ := rfl
  trans hfirst hrest hl := by
    obtain ⟨hl, hl'⟩ := List.forall_mem_append.1 hl
    exact (hrest hl').trans (hfirst hl)
  effect heffect hl := by
    have hread := read_of_effect heffect (hl _ (List.mem_singleton_self _))
    exact hread
  count m _ := by rw [memory_count]
  outside m op hop _ := m.read_perform_outside hop ha

theorem exists_of_mem_written {b : Nat} (hb : b ∈ m.written i) :
    ∃ x, (i = .decimal x ∧ ∃ k < 3, m.index.toNat + k = b) ∨
      (i = .store x ∧ ∃ k ≤ x.toNat, m.index.toNat + k = b) := by
  cases i with
  | decimal x =>
    obtain ⟨k, hk, rfl⟩ := List.mem_map.1 hb
    exact ⟨x, Or.inl ⟨rfl, k, List.mem_range.1 hk, rfl⟩⟩
  | store x =>
    obtain ⟨k, hk, rfl⟩ := List.mem_map.1 hb
    exact ⟨x, Or.inr ⟨rfl, k, Nat.le_of_lt_succ (List.mem_range.1 hk), rfl⟩⟩
  | _ => cases hb

/-- A byte at the bottom of memory that differs after a run was written to by one of two
    instructions. -/
theorem exists_written_of_read_ne (hm : m.Bounded) {ops : List Operation} {a : Nat}
    (ha : a < Memory.programStart) (hne : (m.after ops).memory.read a ≠ m.memory.read a) :
    ∃ n x,
      ((n, .decimal x) ∈ m.carriedOut ops ∧ ∃ k < 3, (n.index.toNat + k) % 4096 = a) ∨
      ((n, .store x) ∈ m.carriedOut ops ∧ ∃ k ≤ x.toNat, (n.index.toNat + k) % 4096 = a) := by
  have hsome : ∃ p ∈ m.carriedOut ops, ∃ b ∈ p.1.written p.2, b % 4096 = a % 4096 := by
    by_contra hnone
    push Not at hnone
    exact hne ((keptByRuns_read ha).after hm ops hnone)
  obtain ⟨⟨n, i⟩, hp, b, hb, hba⟩ := hsome
  rw [Nat.mod_eq_of_lt (Nat.lt_trans ha (by decide))] at hba
  rcases exists_of_mem_written hb with ⟨x, ⟨rfl, k, hk, rfl⟩ | ⟨rfl, k, hk, rfl⟩⟩
  · exact ⟨n, x, Or.inl ⟨hp, k, hk, hba⟩⟩
  · exact ⟨n, x, Or.inr ⟨hp, k, hk, hba⟩⟩

/-- Every instruction changes only its footprint. On any machine with a stack pointer in range, an
    instruction with operands in range does not fault, and it leaves everything outside of its
    footprint as it was; locations together are the whole machine. So over a run a byte of the font
    changes only if one of two instructions is carried out whose range meets it, modulo 4096. -/
theorem sameAt_execute (hp : m.stack.pointer.toNat ≤ 15) :
    (∀ i : Instruction, i.InRange → (m.execute i).verdict ≠ .fault ∧
      ∀ l, l ∉ m.footprint i → m.SameAt (m.execute i).machine l) ∧
    (∀ n, (∀ l, m.SameAt n l) → n = m) ∧
    (m.settings.speed ≠ 0 → ∀ ops : List Operation, ∀ a < Font.bytes.size,
      (m.after ops).memory.read a ≠ m.memory.read a →
      ∃ n x,
        ((n, .decimal x) ∈ m.carriedOut ops ∧ ∃ k < 3, (n.index.toNat + k) % 4096 = a) ∨
        ((n, .store x) ∈ m.carriedOut ops ∧ ∃ k ≤ x.toNat, (n.index.toNat + k) % 4096 = a)) := by
  refine ⟨fun i hi => ⟨(executed m i).ne_fault hi hp, ?_⟩, fun n => eq_of_sameAt, ?_⟩
  · intro l hl
    have hexecuted := executed m i
    generalize m.execute i = o at hexecuted
    cases hexecuted with
    | refused | fault => exact sameAt_refl m l
    | done heffect => exact sameAt_of_effect heffect hl
  · intro hspeed ops a ha hne
    have hbottom : a < Memory.programStart := Nat.lt_trans ha (by decide)
    exact exists_written_of_read_ne ⟨hp, hspeed⟩ hbottom hne

/-- Two registers stored at the top of memory, of which the second reaches the font. -/
theorem sameAt_execute_store_font :
    ∃ m : Machine, m.index = 0xFFF ∧
      let n := (m.execute (.store 1)).machine
      m.footprint (.store 1) = [.memory 0xFFF, .memory 0] ∧
      n.memory.read 1 = m.memory.read 1 ∧ n.memory.read 0 ≠ m.memory.read 0 ∧
      ∃ p x, (p, .store x) ∈ m.carriedOut [.execute (.store 1)] ∧
        ∃ k ≤ x.toNat, (p.index.toNat + k) % 4096 = 0 := by
  let m : Machine := { blank {} (Vector.replicate 8 0) with index := 0xFFF }
  refine ⟨m, rfl, ?_⟩
  intro n
  have hfootprint : m.footprint (.store 1) = [.memory 0xFFF, .memory 0] := by decide
  obtain ⟨hexecute, -, hfont⟩ := sameAt_execute (m := m) (by decide)
  obtain ⟨-, hsame⟩ := hexecute (.store 1) (by decide)
  have hkept : n.memory.read 1 = m.memory.read 1 :=
    read_of_sameAt (hsame (.memory 1) (by rw [hfootprint]; decide))
  have hnew : n.memory.read 0 = 0 := by
    have hmemory : n.memory = m.memory.store 0xFFF [0, 0] := rfl
    rw [hmemory, Memory.store, Memory.store, Memory.store, Memory.read_write, if_pos rfl]
  have hold : m.memory.read 0 = 0xF0 := by
    simp [m, blank, Memory.read, Memory.ofBytes, Font.bytes]
  have hne : n.memory.read 0 ≠ m.memory.read 0 := by
    rw [hnew, hold]
    decide
  obtain ⟨p, x, ⟨hp, -⟩ | ⟨hp, hk⟩⟩ := hfont (by decide) [.execute (.store 1)] 0 (by decide) hne
  · simp [carriedOut, carriedOutBy, carriedOutAll] at hp
  · exact ⟨hfootprint, hkept, hne, p, x, hp, hk⟩

end Machine

end Chip8
