import Chip8.Proofs.Faults

/-! # Loading programs

    A load writes the whole program space: the program at its bottom, and zeros above. So nothing
    that was there before can be seen after it, be it an older program or what a program wrote over
    itself. Apart from that space and the counter, a load changes nothing, and a program that does
    not fit is refused before anything is changed.

    Hence a load takes back the loads before it, and of any number of loads only the last one that
    was accepted matters. -/

namespace Chip8

namespace Memory

variable {rom : Array UInt8} {a : Nat}

theorem read_withProgram_add (m : Memory) (hrom : rom.size ≤ maxRom) (i : Nat)
    (hi : i < rom.size) : (m.withProgram rom).read (programStart + i) = rom[i] := by
  have htop : programStart + i < 4096 := by
    simp only [maxRom, size, programStart] at hrom ⊢
    omega
  rw [read_withProgram m rom htop, if_neg (by omega), Nat.add_sub_cancel_left,
    Array.getElem?_eq_getElem hi]
  rfl

theorem read_withProgram_of_le (m : Memory) (h : programStart + rom.size ≤ a) (ha : a < 4096) :
    (m.withProgram rom).read a = 0 := by
  rw [read_withProgram m rom ha, if_neg (by omega), Array.getElem?_eq_none (by omega)]
  rfl

theorem read_withProgram_of_lt (m : Memory) (rom : Array UInt8) (h : a < programStart) :
    (m.withProgram rom).read a = m.read a := by
  have ha : a < 4096 := by
    simp only [programStart] at h
    omega
  rw [read_withProgram m rom ha, if_pos h]

/-- A program takes the place of the one before. -/
theorem withProgram_withProgram (m : Memory) (rom rom' : Array UInt8) :
    (m.withProgram rom).withProgram rom' = m.withProgram rom' := by
  simp only [withProgram, Memory.mk.injEq]
  ext i hi
  simp only [Vector.getElem_ofFn, Fin.getElem_fin]
  split <;> rfl

end Memory

namespace Machine

/-- Whether a program fits into the program space. -/
def Fits (rom : Array UInt8) : Prop := rom.size ≤ Memory.maxRom

instance : DecidablePred Fits := fun rom => inferInstanceAs (Decidable (rom.size ≤ Memory.maxRom))

/-! ### One load -/

theorem load_of_not_fits (m : Machine) {rom : Array UInt8} (h : ¬ Fits rom) :
    m.load rom = ⟨.failed (.romTooLarge rom.size Memory.maxRom), m, []⟩ := by
  rw [load, if_pos (Nat.lt_of_not_le h)]

theorem load_of_fits (m : Machine) {rom : Array UInt8} (h : Fits rom) :
    m.load rom =
      ⟨.done,
        { m with
          memory := m.memory.withProgram rom
          pc := UInt16.ofNat Memory.programStart },
        [.note (.romLoaded rom.size)]⟩ := by
  rw [load, if_neg (Nat.not_lt.2 h)]

theorem verdict_load_eq_done_iff (m : Machine) (rom : Array UInt8) :
    (m.load rom).verdict = .done ↔ Fits rom := by
  by_cases h : Fits rom
  · simp [m.load_of_fits h, h]
  · simp [m.load_of_not_fits h, h]

/-- A load that is accepted comes to the same whatever was loaded before. -/
theorem load_load (m : Machine) (rom : Array UInt8) {rom' : Array UInt8} (h : Fits rom') :
    (m.load rom).machine.load rom' = m.load rom' := by
  have hloaded := loaded m rom
  generalize m.load rom = o at hloaded
  cases hloaded with
  | refused => rfl
  | @done _ memory hmemory =>
    have hkept : memory.withProgram rom' = m.memory.withProgram rom' := by
      rw [hmemory, Memory.withProgram_withProgram]
    rw [load_of_fits _ h, load_of_fits m h, ← hkept]

/-! ### Many loads -/

theorem load_after_loads (m : Machine) (roms : List (Array UInt8)) {rom : Array UInt8}
    (h : Fits rom) : (m.after (roms.map .load)).load rom = m.load rom := by
  induction roms generalizing m with
  | nil => rfl
  | cons first roms ih =>
    rw [List.map_cons, after_cons, ih]
    exact m.load_load first h

theorem after_loads (m : Machine) (roms : List (Array UInt8)) :
    m.after (roms.map .load) =
      (roms.filter Fits).getLast?.elim m fun rom => (m.load rom).machine := by
  -- the last load decides: accepted it is all that matters, refused it changes nothing
  induction roms using List.reverseRecOn with
  | nil => rfl
  | append_singleton roms rom ih =>
    rw [List.map_append, after_append, List.map_singleton, after_cons, after_nil, perform,
      List.filter_append]
    by_cases h : Fits rom
    · rw [load_after_loads m roms h, List.filter_singleton, decide_eq_true h, cond_true,
        List.getLast?_concat, Option.elim_some]
    · rw [load_of_not_fits _ h, List.filter_singleton, decide_eq_false h, cond_false,
        List.append_nil]
      exact ih

theorem after_accepted_loads (m : Machine) (roms : List (Array UInt8)) :
    m.after ((roms.filter Fits).map .load) = m.after (roms.map .load) := by
  rw [after_loads, after_loads, List.filter_filter]
  simp only [Bool.and_self]

theorem history_accepted_loads (m : Machine) (roms : List (Array UInt8)) :
    m.history ((roms.filter Fits).map .load) =
      (m.history (roms.map .load)).filter (·.verdict = .done) := by
  induction roms generalizing m with
  | nil => rfl
  | cons rom roms ih =>
    have hne : (m.perform (.load rom)).verdict ≠ .fault := m.load_ne_fault rom
    have hdone : (m.perform (.load rom)).verdict = .done ↔ Fits rom :=
      m.verdict_load_eq_done_iff rom
    have hrest := ih (m.perform (.load rom)).machine
    rw [List.map_cons, history_cons hne]
    by_cases h : Fits rom
    · rw [List.filter_cons_of_pos (by simp [h]), List.filter_cons_of_pos (by simp [hdone, h]),
        List.map_cons, history_cons hne, hrest]
    · rw [List.filter_cons_of_neg (by simp [h]), List.filter_cons_of_neg (by simp [hdone, h]),
        ← hrest, perform, load_of_not_fits m h]

/-- A load is exact, atomic and blind to what was before. A program that is too long is refused, and
    nothing is changed. Any other fills the program space, with zeros above it, and starts; the
    memory below, and every other part of the machine, stay as they are. Of any number of loads, the
    refused ones can be left out, and all but the last of the others: the machine after them is the
    same, and the loads that are left come to the same. -/
theorem load_replaces_program (m : Machine) :
    (∀ rom : Array UInt8, 3584 < rom.size →
      m.load rom = ⟨.failed (.romTooLarge rom.size 3584), m, []⟩) ∧
    (∀ rom : Array UInt8, rom.size ≤ 3584 → ∃ memory : Memory,
      m.load rom = ⟨.done, { m with memory, pc := 0x200 }, [.note (.romLoaded rom.size)]⟩ ∧
      (∀ i (hi : i < rom.size), memory.read (0x200 + i) = rom[i]) ∧
      (∀ a, 0x200 + rom.size ≤ a → a ≤ 0xFFF → memory.read a = 0) ∧
      ∀ a < 0x200, memory.read a = m.memory.read a) ∧
    ∀ roms : List (Array UInt8),
      let accepted := roms.filter (·.size ≤ 3584)
      m.after (roms.map .load) = m.after (accepted.map .load) ∧
      (m.history (roms.map .load)).filter (·.verdict = .done) = m.history (accepted.map .load) ∧
      m.after (roms.map .load) = accepted.getLast?.elim m fun rom => (m.load rom).machine := by
  refine ⟨fun rom hrom => m.load_of_not_fits (Nat.not_le.2 hrom), fun rom hrom => ?_,
    fun roms => ?_⟩
  · refine ⟨m.memory.withProgram rom, m.load_of_fits hrom, fun i hi => ?_, fun a hle ha => ?_,
      fun a ha => ?_⟩
    · exact m.memory.read_withProgram_add hrom i hi
    · exact m.memory.read_withProgram_of_le hle (Nat.lt_succ_of_le ha)
    · exact m.memory.read_withProgram_of_lt rom ha
  · exact ⟨(m.after_accepted_loads roms).symm, (m.history_accepted_loads roms).symm,
      m.after_loads roms⟩

/-- A long program, one that is too long, and a short one: nothing is left of the long one. -/
theorem load_replaces_longer :
    ∃ m events, Machine.new #[0x12, 0x00, 0xFF] {} (Vector.replicate 8 0) = .ok (m, events) ∧
      m.memory.read 0x202 = 0xFF ∧
      let n := m.after [.load (Array.replicate 3585 0xAA), .load #[0x00, 0xE0]]
      (m.load (Array.replicate 3585 0xAA)).machine = m ∧ n.memory.read 0x201 = 0xE0 ∧
        n.memory.read 0x202 = 0 ∧ n.pc = 0x200 := by
  obtain ⟨m, events, hnew⟩ :=
    exists_new #[0x12, 0x00, 0xFF] {} (Vector.replicate 8 0) (by decide) (by decide)
  refine ⟨m, events, hnew, ?_, ?_⟩
  · obtain ⟨-, -, rfl, -⟩ := new_eq_ok_iff.1 hnew
    have hfits : Fits #[0x12, 0x00, 0xFF] := by decide
    exact Memory.read_withProgram_add _ hfits 2 (by decide)
  · intro n
    obtain ⟨hrefused, haccepted, hloads⟩ := load_replaces_program m
    have hlong := hrefused (Array.replicate 3585 0xAA) (by simp)
    obtain ⟨memory, hload, hbytes, hzeros, -⟩ := haccepted #[0x00, 0xE0] (by decide)
    obtain ⟨-, -, hlast⟩ := hloads [Array.replicate 3585 0xAA, #[0x00, 0xE0]]
    have hn : n = { m with memory, pc := 0x200 } := by
      simpa [n, hload] using hlast
    rw [hn]
    exact ⟨by rw [hlong], hbytes 1 (by decide), hzeros 0x202 (by decide) (by decide), rfl⟩

end Machine

end Chip8
