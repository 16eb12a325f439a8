import Chip8.Machine.Operation
import Chip8.Proofs.Execution

/-! # Reachable machines

    A machine is reachable when it was built from a program and settings and then only met
    operations that did not fault. Its stack pointer always selects a slot and its speed is never
    zero. If all operands given from outside were in range, a register that waits for a key exists
    as well, and then no operation faults at all: the three facts together are kept by every
    operation. -/

namespace Chip8

/-- Whether an operation executes no instruction. -/
def Operation.isOutside : Operation → Bool
  | .press _ | .release _ | .load _ => true
  | .step | .execute _ | .executeAll _ => false

/-- All operands given to an operation are in range. -/
def Operation.InRange : Operation → Prop
  | .execute i => i.InRange
  | .executeAll is => ∀ i ∈ is, i.InRange
  | .step | .press _ | .release _ | .load _ => True

namespace CallStack

theorem pointer_push? {s t : CallStack} {a : UInt16} (h : s.push? a = some t) :
    t.pointer.toNat = s.pointer.toNat + 1 ∧ t.pointer.toNat ≤ 15 := by
  unfold push? at h
  split at h
  · cases h
    rw [UInt8.toNat_add]
    simp only [UInt8.reduceToNat]
    omega
  · cases h

theorem pointer_drop (s : CallStack) (h : s.pointer ≠ 0) :
    s.drop.pointer.toNat = s.pointer.toNat - 1 := by
  have hpos : 1 ≤ s.pointer.toNat := UInt8.lt_iff_toNat_lt.1 (UInt8.pos_iff_ne_zero.2 h)
  exact UInt8.toNat_sub_of_le _ _ (UInt8.le_iff_toNat_le.2 hpos)

end CallStack

namespace Machine

/-- The machines that can be built and then brought about by allowed operations without a fault. -/
inductive Reachable (allowed : Operation → Prop) : Machine → Prop where
  | new {rom : Array UInt8} {settings : Settings} {entropy : ChaCha.Key} {m : Machine}
      {events : List Event} (h : Machine.new rom settings entropy = .ok (m, events)) :
      Reachable allowed m
  | perform {m : Machine} {op : Operation} (hm : Reachable allowed m) (hop : allowed op)
      (hok : (m.perform op).verdict ≠ .fault) : Reachable allowed (m.perform op).machine

/-- What holds of every machine that only met operands in range: it is bounded, and a register that
    waits for a key exists. -/
structure WellFormed (m : Machine) : Prop extends Bounded m where
  awaited_lt : ∀ x, m.keypad.awaited = some x → x.toNat < 16

variable {m : Machine} {i : Instruction}

/-! ### Outcomes of the operations -/

theorem new_eq_ok_iff {rom : Array UInt8} {settings : Settings} {entropy : ChaCha.Key}
    {events : List Event} :
    Machine.new rom settings entropy = .ok (m, events) ↔
      settings.speed ≠ 0 ∧ rom.size ≤ Memory.maxRom ∧
        m = { blank settings entropy with
          memory := (blank settings entropy).memory.withProgram rom } ∧
        events = [.note (.romLoaded rom.size)] := by
  rw [Machine.new, load]
  split
  · simp_all
  · rename_i hspeed
    by_cases hrom : Memory.maxRom < rom.size
    · simp [hrom]
    · simp [hrom, hspeed, blank, eq_comm]
      omega

/-- A program that fits into memory starts, at any speed there is. -/
theorem exists_new (rom : Array UInt8) (settings : Settings) (entropy : ChaCha.Key)
    (hspeed : settings.speed ≠ 0) (hrom : rom.size ≤ Memory.maxRom) :
    ∃ m events, Machine.new rom settings entropy = .ok (m, events) :=
  ⟨_, _, new_eq_ok_iff.2 ⟨hspeed, hrom, rfl, rfl⟩⟩

/-- Counting a step changes the count and the timers. -/
theorem exists_count (m : Machine) :
    ∃ steps delay sound, m.count.1 = { m with steps, delay, sound } := by
  dsimp only [count]
  split <;> exact ⟨_, _, _, rfl⟩

theorem stack_count (m : Machine) : m.count.1.stack = m.stack := by
  obtain ⟨steps, delay, sound, hcount⟩ := m.exists_count
  rw [hcount]

theorem pc_count (m : Machine) : m.count.1.pc = m.pc := by
  obtain ⟨steps, delay, sound, hcount⟩ := m.exists_count
  rw [hcount]

theorem keypad_count (m : Machine) : m.count.1.keypad = m.keypad := by
  obtain ⟨steps, delay, sound, hcount⟩ := m.exists_count
  rw [hcount]

theorem memory_count (m : Machine) : m.count.1.memory = m.memory := by
  obtain ⟨steps, delay, sound, hcount⟩ := m.exists_count
  rw [hcount]

theorem generator_count (m : Machine) : m.count.1.generator = m.generator := by
  obtain ⟨steps, delay, sound, hcount⟩ := m.exists_count
  rw [hcount]

/-- The outcomes of an instruction from outside. -/
inductive Executed (m : Machine) (i : Instruction) : Outcome → Prop where
  | refused {e : Error} (he : m.refusal? m.pc i = some e) : Executed m i ⟨.failed e, m, []⟩
  | fault (heffect : m.effect m.pc i = .error .fault) : Executed m i ⟨.fault, m, []⟩
  | done {after : Machine} (heffect : m.effect m.pc i = .ok after) :
      Executed m i ⟨.done, after, reports i⟩

theorem executed (m : Machine) (i : Instruction) : Executed m i (m.execute i) := by
  rw [execute]
  cases heffect : m.effect m.pc i with
  | ok after => exact .done heffect
  | error s =>
    cases s with
    | fault => exact .fault heffect
    | error e left =>
      obtain ⟨rfl, he⟩ := refusal?_of_effect heffect
      exact .refused he

/-- An instruction with operands in range does not fault. -/
theorem Executed.ne_fault (hi : i.InRange) (hp : m.stack.pointer.toNat ≤ 15) {o : Outcome}
    (ho : Executed m i o) : o.verdict ≠ .fault := by
  cases ho with
  | refused | done => exact Verdict.noConfusion
  | fault heffect =>
    cases hr : m.refusal? m.pc i with
    | some e => cases (m.effect_of_refusal? m.pc hr).symm.trans heffect
    | none =>
      obtain ⟨after, hafter⟩ := m.exists_effect_of_inRange m.pc hi hp hr
      cases hafter.symm.trans heffect

/-- The outcomes of a key press. -/
inductive Pressed (m : Machine) (key : UInt8) : Outcome → Prop where
  | ignored (hkey : 16 ≤ key.toNat) :
      Pressed m key ⟨.failed (.invalidKey key), m, [.note (.pressIgnored (.invalidKey key))]⟩
  | noticed (hkey : key.toNat < 16) (hawaited : m.keypad.awaited = none) :
      Pressed m key
        ⟨.done, { m with keypad := ⟨m.keypad.pressed.set key.toNat true, none⟩ },
          [.note (.pressed key)]⟩
  | resumed (hkey : key.toNat < 16) {x : UInt8} (hawaited : m.keypad.awaited = some x)
      {registers : Registers} (hset : m.registers.set? x key = some registers) :
      Pressed m key
        ⟨.done, { m with keypad := ⟨m.keypad.pressed.set key.toNat true, none⟩, registers },
          [.note (.resumed key x)]⟩
  | fault (hkey : key.toNat < 16) {x : UInt8} (hawaited : m.keypad.awaited = some x)
      (hset : m.registers.set? x key = none) : Pressed m key ⟨.fault, m, []⟩

theorem pressed (m : Machine) (key : UInt8) : Pressed m key (m.press key) := by
  rw [press, Keypad.press]
  by_cases hkey : key.toNat < 16
  · rw [dif_pos hkey]
    cases hawaited : m.keypad.awaited with
    | none => exact .noticed hkey hawaited
    | some x =>
      cases hset : m.registers.set? x key with
      | none =>
        simp only [hset]
        exact .fault hkey hawaited hset
      | some registers =>
        simp only [hset]
        exact .resumed hkey hawaited hset
  · rw [dif_neg hkey]
    exact .ignored (Nat.le_of_not_lt hkey)

/-- The outcomes of a key release. -/
inductive Released (m : Machine) (key : UInt8) : Outcome → Prop where
  | ignored (hkey : 16 ≤ key.toNat) :
      Released m key ⟨.failed (.invalidKey key), m, [.note (.releaseIgnored (.invalidKey key))]⟩
  | noticed (hkey : key.toNat < 16) :
      Released m key
        ⟨.done, { m with keypad := ⟨m.keypad.pressed.set key.toNat false, m.keypad.awaited⟩ },
          [.note (.released key)]⟩

theorem released (m : Machine) (key : UInt8) : Released m key (m.release key) := by
  rw [release, Keypad.release]
  by_cases hkey : key.toNat < 16
  · rw [dif_pos hkey]
    exact .noticed hkey
  · rw [dif_neg hkey]
    exact .ignored (Nat.le_of_not_lt hkey)

/-- The outcomes of a load. -/
inductive Loaded (m : Machine) (rom : Array UInt8) : Outcome → Prop where
  | refused (hrom : Memory.maxRom < rom.size) :
      Loaded m rom ⟨.failed (.romTooLarge rom.size Memory.maxRom), m, []⟩
  | done (hrom : rom.size ≤ Memory.maxRom) {memory : Memory}
      (hmemory : memory = m.memory.withProgram rom) :
      Loaded m rom
        ⟨.done, { m with memory, pc := UInt16.ofNat Memory.programStart },
          [.note (.romLoaded rom.size)]⟩

theorem loaded (m : Machine) (rom : Array UInt8) : Loaded m rom (m.load rom) := by
  rw [load]
  by_cases hrom : Memory.maxRom < rom.size
  · rw [if_pos hrom]
    exact .refused hrom
  · rw [if_neg hrom]
    exact .done (Nat.le_of_not_lt hrom) rfl

theorem exists_press (m : Machine) (key : UInt8) :
    ∃ registers keypad, (m.press key).machine = { m with registers, keypad } := by
  have hall : ∀ o, Pressed m key o → ∃ registers keypad,
      o.machine = { m with registers, keypad } := by
    rintro _ ⟨⟩ <;> exact ⟨_, _, rfl⟩
  exact hall _ (pressed m key)

theorem exists_release (m : Machine) (key : UInt8) :
    ∃ keypad, (m.release key).machine = { m with keypad } := by
  have hall : ∀ o, Released m key o → ∃ keypad, o.machine = { m with keypad } := by
    rintro _ ⟨⟩ <;> exact ⟨_, rfl⟩
  exact hall _ (released m key)

theorem exists_load (m : Machine) (rom : Array UInt8) :
    ∃ memory pc, (m.load rom).machine = { m with memory, pc } := by
  have hall : ∀ o, Loaded m rom o → ∃ memory pc, o.machine = { m with memory, pc } := by
    rintro _ ⟨⟩ <;> exact ⟨_, _, rfl⟩
  exact hall _ (loaded m rom)

/-- What executes no instruction leaves most of the machine alone. -/
theorem exists_perform_outside (m : Machine) {op : Operation} (hop : op.isOutside = true) :
    ∃ memory registers pc keypad,
      (m.perform op).machine = { m with memory, registers, pc, keypad } := by
  cases op with
  | press key =>
    obtain ⟨registers, keypad, hafter⟩ := m.exists_press key
    exact ⟨m.memory, registers, m.pc, keypad, hafter⟩
  | release key =>
    obtain ⟨keypad, hafter⟩ := m.exists_release key
    exact ⟨m.memory, m.registers, m.pc, keypad, hafter⟩
  | load rom =>
    obtain ⟨memory, pc, hafter⟩ := m.exists_load rom
    exact ⟨memory, m.registers, pc, m.keypad, hafter⟩
  | step | execute | executeAll => cases hop

theorem executeAll_cons (m : Machine) (i : Instruction) (is : List Instruction) :
    m.executeAll (i :: is) =
      if (m.execute i).verdict = .done then
        { (m.execute i).machine.executeAll is with
          events := (m.execute i).events ++ ((m.execute i).machine.executeAll is).events }
      else m.execute i := by
  cases h : m.execute i with
  | mk verdict after events => cases verdict <;> simp [executeAll, h]

theorem history_cons {op : Operation} (h : (m.perform op).verdict ≠ .fault)
    (ops : List Operation) :
    m.history (op :: ops) = m.perform op :: (m.perform op).machine.history ops := by
  rw [history]
  cases hv : (m.perform op).verdict with
  | fault => exact absurd hv h
  | done | failed => rfl

/-- None of the operations faults. -/
def Completes (m : Machine) (ops : List Operation) : Prop :=
  ∀ o ∈ m.history ops, o.verdict ≠ .fault

theorem completes_nil (m : Machine) : m.Completes [] := fun _ ho => absurd ho List.not_mem_nil

theorem completes_cons_iff {op : Operation} {ops : List Operation} :
    m.Completes (op :: ops) ↔
      (m.perform op).verdict ≠ .fault ∧ (m.perform op).machine.Completes ops := by
  by_cases hok : (m.perform op).verdict = .fault
  · simp [Completes, history, hok]
  · rw [Completes, history_cons hok, List.forall_mem_cons]
    rfl

/-! ### Bounded machines -/

/-- Only the stack and the settings matter. -/
theorem Bounded.congr (h : m.Bounded) {after : Machine} (hstack : after.stack = m.stack)
    (hsettings : after.settings = m.settings) : after.Bounded :=
  ⟨hstack ▸ h.pointer_le, hsettings ▸ h.speed_ne_zero⟩

theorem Bounded.changed (h : m.Bounded) {after : Machine} (hc : Changed m i after) :
    after.Bounded := by
  have hp := h.pointer_le
  cases hc with
  | ret hpointer htop =>
    have hdrop := m.stack.pointer_drop hpointer
    refine ⟨?_, h.speed_ne_zero⟩
    show m.stack.drop.pointer.toNat ≤ 15
    omega
  | call hpush => exact ⟨(CallStack.pointer_push? hpush).2, h.speed_ne_zero⟩
  | _ => exact h.congr rfl rfl

theorem Bounded.count (h : m.Bounded) : m.count.1.Bounded := by
  obtain ⟨steps, delay, sound, hcount⟩ := m.exists_count
  rw [hcount]
  exact h.congr rfl rfl

theorem Bounded.of_stepped (h : m.Bounded) {o : Outcome} (ho : Stepped m o) :
    o.machine.Bounded := by
  cases ho with
  | waits | unknown | refused => exact h
  | ran hw hnext hfree heffect =>
    have hmoved : Bounded { m with pc := m.pc + 2 } := h.congr rfl rfl
    exact (hmoved.changed (changed_of_effect heffect)).count

theorem Bounded.of_executed (h : m.Bounded) {o : Outcome} (ho : Executed m i o) :
    o.machine.Bounded := by
  cases ho with
  | refused | fault => exact h
  | done heffect => exact h.changed (changed_of_effect heffect)

theorem Bounded.executeAll (h : m.Bounded) (is : List Instruction) :
    (m.executeAll is).machine.Bounded := by
  induction is generalizing m with
  | nil => exact h
  | cons i is ih =>
    have hi := h.of_executed (executed m i)
    rw [executeAll_cons]
    split
    · exact ih hi
    · exact hi

theorem Bounded.perform (h : m.Bounded) (op : Operation) : (m.perform op).machine.Bounded := by
  cases hop : op.isOutside with
  | true =>
    obtain ⟨memory, registers, pc, keypad, hafter⟩ := m.exists_perform_outside hop
    rw [hafter]
    exact h.congr rfl rfl
  | false =>
    cases op with
    | step => exact h.of_stepped (stepped h)
    | execute i => exact h.of_executed (executed m i)
    | executeAll is => exact h.executeAll is
    | press | release | load => cases hop

theorem Bounded.after (h : m.Bounded) (ops : List Operation) : (m.after ops).Bounded := by
  induction ops generalizing m with
  | nil => exact h
  | cons op ops ih => exact ih (h.perform op)

/-! ### Well-formed machines -/

theorem wellFormed_new {rom : Array UInt8} {settings : Settings} {entropy : ChaCha.Key}
    {events : List Event} (h : Machine.new rom settings entropy = .ok (m, events)) :
    m.WellFormed := by
  obtain ⟨hspeed, -, rfl, -⟩ := new_eq_ok_iff.1 h
  exact ⟨⟨Nat.zero_le _, hspeed⟩, nofun⟩

theorem Reachable.bounded {allowed : Operation → Prop} (h : Reachable allowed m) :
    m.Bounded := by
  induction h with
  | new h => exact (wellFormed_new h).toBounded
  | perform _ _ _ ih => exact ih.perform _

theorem WellFormed.changed (h : m.WellFormed) (hi : i.InRange) {after : Machine}
    (hc : Changed m i after) : after.WellFormed := by
  refine ⟨h.toBounded.changed hc, ?_⟩
  cases hc with
  | awaitKey x =>
    intro y hy
    cases hy
    exact hi (.reg x) (List.mem_singleton_self _)
  | _ => exact h.awaited_lt

theorem WellFormed.of_stepped (h : m.WellFormed) {o : Outcome} (ho : Stepped m o) :
    o.verdict ≠ .fault ∧ o.machine.WellFormed := by
  cases ho with
  | waits | unknown | refused => exact ⟨nofun, h⟩
  | @ran hw i after hnext hfree heffect =>
    have hmoved : WellFormed { m with pc := m.pc + 2 } :=
      ⟨h.toBounded.congr rfl rfl, h.awaited_lt⟩
    have hafter : after.WellFormed :=
      hmoved.changed (Instruction.inRange_of_decode? hnext) (changed_of_effect heffect)
    obtain ⟨steps, delay, sound, hcount⟩ := after.exists_count
    refine ⟨nofun, hafter.toBounded.count, ?_⟩
    rw [hcount]
    exact hafter.awaited_lt

theorem WellFormed.of_executed (h : m.WellFormed) (hi : i.InRange) {o : Outcome}
    (ho : Executed m i o) : o.verdict ≠ .fault ∧ o.machine.WellFormed := by
  refine ⟨ho.ne_fault hi h.pointer_le, ?_⟩
  cases ho with
  | refused | fault => exact h
  | done heffect => exact h.changed hi (changed_of_effect heffect)

theorem WellFormed.of_pressed (h : m.WellFormed) {key : UInt8} {o : Outcome}
    (ho : Pressed m key o) : o.verdict ≠ .fault ∧ o.machine.WellFormed := by
  cases ho with
  | ignored => exact ⟨nofun, h⟩
  | noticed | resumed => exact ⟨nofun, h.toBounded.congr rfl rfl, nofun⟩
  | @fault hkey x hawaited hset =>
    have hx := h.awaited_lt x hawaited
    have hout := (m.registers.set?_eq_none_iff x key).1 hset
    omega

theorem WellFormed.of_released (h : m.WellFormed) {key : UInt8} {o : Outcome}
    (ho : Released m key o) : o.verdict ≠ .fault ∧ o.machine.WellFormed := by
  cases ho <;> exact ⟨nofun, h.toBounded.congr rfl rfl, h.awaited_lt⟩

theorem WellFormed.of_loaded (h : m.WellFormed) {rom : Array UInt8} {o : Outcome}
    (ho : Loaded m rom o) : o.verdict ≠ .fault ∧ o.machine.WellFormed := by
  cases ho <;> exact ⟨nofun, h.toBounded.congr rfl rfl, h.awaited_lt⟩

theorem WellFormed.executeAll (h : m.WellFormed) {is : List Instruction}
    (his : ∀ i ∈ is, i.InRange) :
    (m.executeAll is).verdict ≠ .fault ∧ (m.executeAll is).machine.WellFormed := by
  induction is generalizing m with
  | nil => exact ⟨nofun, h⟩
  | cons i is ih =>
    obtain ⟨hi, his⟩ := List.forall_mem_cons.1 his
    have hfirst := h.of_executed hi (executed m i)
    rw [executeAll_cons]
    split
    · exact ih hfirst.2 his
    · exact hfirst

/-- On a well-formed machine no operation with operands in range faults, and the machine stays
    well-formed. -/
theorem WellFormed.perform (h : m.WellFormed) {op : Operation} (hop : op.InRange) :
    (m.perform op).verdict ≠ .fault ∧ (m.perform op).machine.WellFormed := by
  cases op with
  | step => exact h.of_stepped (stepped h.toBounded)
  | execute i => exact h.of_executed hop (executed m i)
  | executeAll is => exact h.executeAll hop
  | press key => exact h.of_pressed (pressed m key)
  | release key => exact h.of_released (released m key)
  | load rom => exact h.of_loaded (loaded m rom)

theorem WellFormed.history (h : m.WellFormed) {ops : List Operation}
    (hops : ∀ op ∈ ops, op.InRange) :
    (m.history ops).length = ops.length ∧
      ∀ o ∈ m.history ops, o.verdict ≠ .fault ∧ o.machine.WellFormed := by
  induction ops generalizing m with
  | nil => exact ⟨rfl, fun _ ho => absurd ho List.not_mem_nil⟩
  | cons op ops ih =>
    obtain ⟨hop, hops⟩ := List.forall_mem_cons.1 hops
    have hfirst := h.perform hop
    obtain ⟨hlength, hrest⟩ := ih hfirst.2 hops
    rw [history_cons hfirst.1]
    exact ⟨by rw [List.length_cons, List.length_cons, hlength],
      List.forall_mem_cons.2 ⟨hfirst, hrest⟩⟩

end Machine

end Chip8
