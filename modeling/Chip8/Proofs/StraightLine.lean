import Chip8.Proofs.Addresses
import Chip8.Proofs.Footprint
import Chip8.Proofs.Timers

/-! # Straight lines of code

    A program can be run in two ways: from memory, step by step, or from outside, as a list of
    instructions. Where it only goes on from one instruction to the next, both do the same. A step
    also moves the counter and counts, but no such instruction looks at the counter or the count, so
    executing on a machine that is elsewhere in its program comes to the same thing. What the code
    must not do is to overwrite itself before it is fetched. -/

namespace Chip8

/-- Whether an instruction only goes on to the next one. -/
def Instruction.isStraight : Instruction → Bool
  | .jump _ | .call _ | .ret | .jumpIndexed _ | .skipEqConst .. | .skipNeConst .. | .skipEq ..
  | .skipNe .. | .skipKeyDown _ | .skipKeyUp _ | .awaitKey _ => false
  | _ => true

/-- The parts that say how far a machine has got in its program. -/
def Part.isPosition : Part → Bool
  | .pc | .steps => true
  | _ => false

/-- The parts that no such instruction changes. -/
def Part.isKept : Part → Bool
  | .settings | .pc | .stack | .keypad | .steps => true
  | _ => false

namespace Instruction

variable {i : Instruction}

theorem avoids_position (h : i.isStraight = true) : i.Avoids Part.isPosition := by
  cases i with
  | jump | call | ret | jumpIndexed | skipEqConst | skipNeConst | skipEq | skipNe | skipKeyDown
  | skipKeyUp | awaitKey => cases h
  | _ => simp [Avoids, reads, writes, Part.isPosition]

theorem isKept_eq_false (h : i.isStraight = true) : ∀ p ∈ i.writes, p.isKept = false := by
  cases i with
  | jump | call | ret | jumpIndexed | skipEqConst | skipNeConst | skipEq | skipNe | skipKeyDown
  | skipKeyUp | awaitKey => cases h
  | _ => simp [writes, Part.isKept]

end Instruction

namespace Memory

variable {m n : Memory}

/-- The words from address `a` upward are the instructions `is`. -/
def Lists (m : Memory) (a : Nat) : List Instruction → Prop
  | [] => True
  | i :: is => Instruction.ofBytes? (m.read a) (m.read (a + 1)) = some i ∧ m.Lists (a + 2) is

theorem Lists.congr {is : List Instruction} {a b : Nat} (h : m.Lists a is)
    (heq : ∀ j < 2 * is.length, n.read (b + j) = m.read (a + j)) : n.Lists b is := by
  induction is generalizing a b with
  | nil => trivial
  | cons i is ih =>
    simp only [List.length_cons] at heq
    have hleft : n.read b = m.read a := heq 0 (by omega)
    have hright : n.read (b + 1) = m.read (a + 1) := heq 1 (by omega)
    refine ⟨by rw [hleft, hright]; exact h.1, ih h.2 fun j hj => ?_⟩
    have hrest := heq (2 + j) (by omega)
    rwa [← Nat.add_assoc, ← Nat.add_assoc] at hrest

end Memory

namespace Machine

variable {m after : Machine} {i : Instruction} {is : List Instruction} {origin : UInt16}
  {pc : UInt16} {steps : UInt64}

/-- The machine elsewhere in its program. -/
def elsewhere (m : Machine) (pc : UInt16) (steps : UInt64) : Machine := { m with pc, steps }

/-- Executing `is` in order leaves as many words from address `a` upward alone. -/
def Spares (m : Machine) (is : List Instruction) (a : Nat) : Prop :=
  ∀ q ∈ m.carriedOutAll is, ∀ b ∈ q.1.written q.2, ∀ j < 2 * is.length,
    b % 4096 ≠ (a + j) % 4096

/-- The next `n` steps after so many reach no multiple of the speed. -/
def Quiet (m : Machine) (steps : UInt64) (n : Nat) : Prop :=
  ∀ k, 1 ≤ k → k ≤ n → ¬ m.settings.speed.toNat ∣ (steps + UInt64.ofNat k).toNat

/-! ### One instruction -/

theorem effect_elsewhere (hi : i.isStraight = true) (h : m.effect origin i = .ok after)
    (pc : UInt16) (steps : UInt64) (origin' : UInt16) :
    (m.elsewhere pc steps).effect origin' i = .ok (after.elsewhere pc steps) :=
  effect_graft (n := m.elsewhere pc steps) (Instruction.avoids_position hi) h

/-- What a straight instruction leaves alone. -/
theorem eq_of_effect_of_isStraight (hi : i.isStraight = true)
    (h : m.effect origin i = .ok after) :
    after.settings = m.settings ∧ after.pc = m.pc ∧ after.stack = m.stack ∧
      after.keypad = m.keypad ∧ after.steps = m.steps := by
  rw [← graft_of_effect (Instruction.isKept_eq_false hi) h]
  exact ⟨rfl, rfl, rfl, rfl, rfl⟩

theorem refusal?_of_isStraight (hi : i.isStraight = true) : m.refusal? origin i = none := by
  cases i with
  | call | ret => cases hi
  | _ => rfl

theorem count_of_not_dvd (h : ¬ m.settings.speed.toNat ∣ (m.steps + 1).toNat) :
    m.count = ({ m with steps := m.steps + 1 }, []) := by
  rw [Nat.dvd_iff_mod_eq_zero, ← mod_speed_eq_zero_iff] at h
  exact if_neg h

/-- A step that lets no timer tick does what executing its instruction does, and moves on. -/
theorem step_elsewhere (hm : m.Bounded) (hw : m.isWaiting = false) (hi : i.isStraight = true)
    (hnext : (m.elsewhere pc steps).nextInstruction? = some i)
    (hquiet : ¬ m.settings.speed.toNat ∣ (steps + 1).toNat)
    (h : m.effect origin i = .ok after) :
    (m.elsewhere pc steps).step =
      ⟨.done, after.elsewhere (pc + 2) (steps + 1), .note (.executing pc i) :: reports i⟩ := by
  have heffect : (m.elsewhere (pc + 2) steps).effect pc i = .ok (after.elsewhere (pc + 2) steps) :=
    effect_elsewhere hi h (pc + 2) steps pc
  have hcount : (after.elsewhere (pc + 2) steps).count =
      (after.elsewhere (pc + 2) (steps + 1), []) :=
    count_of_not_dvd (by rwa [elsewhere, settings_effect h])
  have hw' : (m.elsewhere pc steps).isWaiting = false := hw
  have hm' : (m.elsewhere pc steps).Bounded := hm.congr rfl rfl
  have hran := Stepped.ran hw' hnext (refusal?_of_isStraight hi) heffect
  rw [hran.step_eq hm', hcount, List.append_nil]
  rfl

/-! ### Many instructions -/

theorem Quiet.succ {n : Nat} (h : m.Quiet steps (n + 1)) (hsettings : after.settings = m.settings) :
    after.Quiet (steps + 1) n := by
  intro k hk hkn
  have hlater := h (k + 1) (by omega) (by omega)
  rwa [UInt64.ofNat_add, UInt64.add_comm _ (UInt64.ofNat 1), ← UInt64.add_assoc,
    ← hsettings] at hlater

theorem execute_eq (h : m.effect m.pc i = .ok after) : m.execute i = ⟨.done, after, reports i⟩ := by
  rw [execute, h]

theorem toNat_add_two_mod (pc : UInt16) (j : Nat) :
    ((pc + 2).toNat + j) % 4096 = (pc.toNat + (2 + j)) % 4096 := by
  simp only [UInt16.toNat_add, UInt16.reduceToNat]
  omega

theorem Spares.cons (h : m.Spares (i :: is) pc.toNat) (heffect : m.effect m.pc i = .ok after) :
    (∀ b ∈ m.written i, ∀ j < 2 * (is.length + 1), b % 4096 ≠ (pc.toNat + j) % 4096) ∧
      after.Spares is (pc + 2).toNat := by
  have hlist : m.carriedOutAll (i :: is) = (m, i) :: after.carriedOutAll is := by
    rw [carriedOutAll, execute_eq heffect, if_pos rfl]
  rw [Spares, hlist] at h
  obtain ⟨hfirst, hrest⟩ := List.forall_mem_cons.1 h
  refine ⟨hfirst, fun q hq b hb j hj => ?_⟩
  rw [toNat_add_two_mod]
  exact hrest q hq b hb (2 + j) (by rw [List.length_cons]; omega)

/-- The code that is still to be fetched is intact. -/
theorem lists_of_effect (hlists : m.memory.Lists (pc.toNat + 2) is)
    (heffect : m.effect origin i = .ok after)
    (hwritten : ∀ b ∈ m.written i, ∀ j < 2 * (is.length + 1), b % 4096 ≠ (pc.toNat + j) % 4096) :
    after.memory.Lists (pc + 2).toNat is := by
  refine hlists.congr fun j hj => ?_
  have hmemory : after.memory.read (pc.toNat + 2 + j) = m.memory.read (pc.toNat + 2 + j) :=
    read_of_effect heffect fun b hb => by
      rw [Nat.add_assoc]
      exact hwritten b hb (2 + j) (by omega)
  rw [← hmemory]
  exact after.memory.read_congr (by rw [toNat_add_two_mod, Nat.add_assoc])

/-- Steps of a machine elsewhere do what executing their instructions does, and move on. -/
theorem steps_elsewhere (hm : m.Bounded) (hw : m.isWaiting = false)
    (hlists : m.memory.Lists pc.toNat is) (hstraight : ∀ i ∈ is, i.isStraight = true)
    (hspares : m.Spares is pc.toNat) (hquiet : m.Quiet steps is.length) :
    ((m.executeAll is).verdict = .done ∧ (m.executeAll is).machine.pc = m.pc ∧
      (m.executeAll is).machine.steps = m.steps) ∧
    ((m.elsewhere pc steps).history (List.replicate is.length .step)).map (·.verdict) =
      List.replicate is.length .done ∧
    (m.elsewhere pc steps).after (List.replicate is.length .step) =
      (m.executeAll is).machine.elsewhere (pc + 2 * UInt16.ofNat is.length)
        (steps + UInt64.ofNat is.length) ∧
    (m.elsewhere pc steps).beeps (List.replicate is.length .step) = 0 := by
  induction is generalizing m pc steps with
  | nil => exact ⟨⟨rfl, rfl, rfl⟩, rfl, by simp [executeAll], rfl⟩
  | cons i is ih =>
    obtain ⟨hi, hstraight⟩ := List.forall_mem_cons.1 hstraight
    obtain ⟨after, heffect⟩ := m.exists_effect_of_inRange m.pc
      (Instruction.inRange_of_decode? hlists.1) hm.pointer_le (refusal?_of_isStraight hi)
    obtain ⟨hsettings, hpc, hstack, hkeypad, hsteps⟩ := eq_of_effect_of_isStraight hi heffect
    obtain ⟨hwritten, hspares⟩ := hspares.cons heffect
    have hlists' := lists_of_effect hlists.2 heffect hwritten
    have hnext : (m.elsewhere pc steps).nextInstruction? = some i := hlists.1
    have hquiet' : ¬ m.settings.speed.toNat ∣ (steps + 1).toNat :=
      hquiet 1 (Nat.le_refl 1) (Nat.le_add_left 1 _)
    have hstep := step_elsewhere hm hw hi hnext hquiet' heffect
    have hsound : ((m.elsewhere pc steps).perform .step).verdict ≠ .fault := by
      rw [perform, hstep]
      exact Verdict.noConfusion
    have hw' : after.isWaiting = false := by rw [isWaiting, hkeypad]; exact hw
    obtain ⟨⟨hdone, hpc', hsteps'⟩, hverdicts, hafter, hbeeps⟩ :=
      ih (hm.changed (changed_of_effect heffect)) hw' hlists' hstraight hspares
        (hquiet.succ hsettings)
    have hall : m.executeAll (i :: is) =
        { after.executeAll is with events := reports i ++ (after.executeAll is).events } := by
      rw [executeAll_cons, execute_eq heffect, if_pos rfl]
    rw [hall]
    refine ⟨⟨hdone, hpc'.trans hpc, hsteps'.trans hsteps⟩, ?_, ?_, ?_⟩
    · rw [List.length_cons, List.replicate_succ, history_cons hsound, perform, hstep, List.map_cons,
        hverdicts, List.replicate_succ]
    · have hpcs : pc + 2 + 2 * UInt16.ofNat is.length = pc + 2 * UInt16.ofNat (is.length + 1) := by
        rw [UInt16.ofNat_add, UInt16.mul_add, UInt16.add_assoc, UInt16.add_comm 2]
        rfl
      have hcounts : steps + 1 + UInt64.ofNat is.length = steps + UInt64.ofNat (is.length + 1) := by
        rw [UInt64.ofNat_add, UInt64.add_assoc, UInt64.add_comm 1]
        rfl
      rw [List.length_cons, List.replicate_succ, after_cons, perform, hstep, hafter, hpcs, hcounts]
    · rw [List.length_cons, List.replicate_succ, beeps_cons, perform, hstep, hbeeps]
      cases i <;> rfl

/-- From a machine that does not wait, steps through code that does not jump, does not overwrite
    itself and lets no timer tick all succeed, and do exactly what executing the same instructions
    in order does, but that they also move the counter and count. -/
theorem steps_eq_executeAll {allowed : Operation → Prop} (h : Reachable allowed m)
    (hw : m.isWaiting = false) (hlists : m.memory.Lists m.pc.toNat is)
    (hstraight : ∀ i ∈ is, i.isStraight = true) (hspares : m.Spares is m.pc.toNat)
    (hquiet : m.Quiet m.steps is.length) :
    ((m.executeAll is).verdict = .done ∧ (m.executeAll is).machine.pc = m.pc ∧
      (m.executeAll is).machine.steps = m.steps) ∧
    (m.history (List.replicate is.length .step)).map (·.verdict) =
      List.replicate is.length .done ∧
    m.after (List.replicate is.length .step) =
      { (m.executeAll is).machine with
        pc := m.pc + 2 * UInt16.ofNat is.length
        steps := m.steps + UInt64.ofNat is.length } ∧
    m.beeps (List.replicate is.length .step) = 0 ∧ m.beeps [.executeAll is] = 0 := by
  obtain ⟨hexecuted, hverdicts, hafter, hbeeps⟩ :=
    steps_elsewhere h.bounded hw hlists hstraight hspares hquiet
  refine ⟨hexecuted, hverdicts, hafter, hbeeps, ?_⟩
  rw [beeps_cons, perform, count_beep_executeAll]
  rfl

/-- A program that sets `V0` and stores it above itself. -/
theorem steps_set_store :
    ∃ m events, Machine.new #[0x60, 0x07, 0xA3, 0x00, 0xF0, 0x55] {} (Vector.replicate 8 0) =
        .ok (m, events) ∧
      let n := m.after (List.replicate 3 .step)
      n.memory.read 0x300 = 7 ∧ n.pc = 0x206 ∧ n.steps = 3 := by
  obtain ⟨m, events, hnew⟩ : ∃ m events,
      Machine.new #[0x60, 0x07, 0xA3, 0x00, 0xF0, 0x55] {} (Vector.replicate 8 0) =
        .ok (m, events) :=
    ⟨_, _, new_eq_ok_iff.2 ⟨by decide, by decide, rfl, rfl⟩⟩
  refine ⟨m, events, hnew, ?_⟩
  obtain ⟨hsettings, hsteps, -, hawaited, -⟩ := start_of_new hnew
  obtain ⟨-, -, hm, -⟩ := new_eq_ok_iff.1 hnew
  have hpc : m.pc = 0x200 := by rw [hm]; rfl
  have hregisters : m.registers = Registers.zero := by rw [hm]; rfl
  have hlists : m.memory.Lists m.pc.toNat [.setConst 0 7, .setIndex 0x300, .store 0] := by
    rw [hpc, hm]
    simp only [Memory.Lists, UInt16.reduceToNat, Memory.read_withProgram, Nat.reduceAdd,
      Nat.reduceLT]
    decide
  have hcarried : m.carriedOutAll [.setConst 0 7, .setIndex 0x300, .store 0] =
      [(m, .setConst 0 7),
        ({ m with registers := m.registers.setLow 0 7 }, .setIndex 0x300),
        ({ m with registers := m.registers.setLow 0 7, index := 0x300 }, .store 0)] := rfl
  have hmemory : (m.executeAll [.setConst 0 7, .setIndex 0x300, .store 0]).machine.memory =
      m.memory.store 0x300 ((m.registers.setLow 0 7).values.toList.take 1) := rfl
  have hspares : m.Spares [.setConst 0 7, .setIndex 0x300, .store 0] m.pc.toNat := by
    rw [Spares, hcarried, hpc]
    simp only [List.forall_mem_cons, written, List.not_mem_nil, false_imp_iff, implies_true,
      true_and, and_true]
    decide
  have hquiet : m.Quiet m.steps 3 := by
    rw [Quiet, hsettings, hsteps]
    decide
  have hw : m.isWaiting = false := by rw [isWaiting, Keypad.isWaiting, hawaited]; rfl
  have hreachable : Reachable (fun _ => False) m := .new hnew
  obtain ⟨-, -, hafter, -⟩ :=
    steps_eq_executeAll hreachable hw hlists (by decide) hspares hquiet
  intro n
  have hn : n = _ := hafter
  rw [hn, hmemory, hpc, hsteps, hregisters]
  have hbytes : (Registers.zero.setLow 0 7).values.toList.take 1 = [7] := by decide
  exact ⟨by rw [hbytes, Memory.store, Memory.store, Memory.read_write, if_pos rfl], rfl, rfl⟩

end Machine

end Chip8
