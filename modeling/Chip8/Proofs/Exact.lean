import Chip8.Proofs.Reachable

/-! # Exact arithmetic

    The machine computes with numbers that wrap around. Here it is once more with exact ones: a sum,
    a product or a difference that does not fit its type is a fault, as are a division by zero and a
    program that does not fit in memory. The result is that nobody can tell: on a machine built from
    any program, no history of operations with operands in range meets such a fault, as long as its
    steps can be counted. -/

namespace Chip8.Machine

/-! ### The machine with exact arithmetic -/

/-- A number that has to be below `bound`. -/
def fitting (bound n : Nat) : Except Stop Nat := if n < bound then .ok n else .error .fault

/-- A difference that has to exist. -/
def difference (a b : Nat) : Except Stop Nat := if b ≤ a then .ok (a - b) else .error .fault

/-- Sets a slot that has to exist. -/
def exactPush (s : CallStack) (pointer : Nat) (a : UInt16) : Except Stop CallStack :=
  if h : pointer < 16 then .ok ⟨s.slots.set pointer a, UInt8.ofNat pointer⟩ else .error .fault

/-- The machine after an instruction. -/
def exactEffect (m : Machine) (origin : UInt16) : Instruction → Except Stop Machine
  | .ret =>
    if m.stack.pointer = 0 then throw (.error (.stackUnderflow origin) m)
    else do
      let a ← checked m.stack.top?
      let pointer ← difference m.stack.pointer.toNat 1
      return { m with pc := a, stack := { m.stack with pointer := UInt8.ofNat pointer } }
  | .call target =>
    if 16 ≤ m.stack.pointer.toNat + 1 then throw (.error (.stackOverflow origin) m)
    else do
      let pointer ← fitting 256 (m.stack.pointer.toNat + 1)
      let stack ← exactPush m.stack pointer m.pc
      return { m with pc := target, stack }
  | .jumpIndexed base => do
    let v ← m.get 0
    let sum ← fitting 65536 (base.toNat + v.toNat)
    let target := UInt16.ofNat sum
    return { m with pc := if m.settings.jumps = .full then target else target &&& 0xFF }
  | .glyph x => do
    let v ← m.get x
    let index ← fitting 65536 (Font.glyphSize * v.toNat)
    return { m with index := UInt16.ofNat index }
  | i => m.effect origin i

/-- Lets both timers tick. -/
def exactTick (m : Machine) : Except Stop (Machine × List Event) :=
  let ticked := { m with delay := countDown m.delay }
  if m.sound = 0 then return (ticked, [])
  else do
    let sound ← difference m.sound.toNat 1
    return ({ ticked with sound := UInt8.ofNat sound },
      if sound = 0 then [.note .soundRanOut, .beep] else [])

/-- Counts a step, and lets the timers tick every `speed` steps. -/
def exactCount (m : Machine) : Except Stop (Machine × List Event) := do
  let steps ← fitting (2 ^ 64) (m.steps.toNat + 1)
  let counted := { m with steps := UInt64.ofNat steps }
  if m.settings.speed = 0 then throw .fault
  else if steps % m.settings.speed.toNat = 0 then counted.exactTick
  else return (counted, [])

/-- Takes a step. -/
def exactStep (m : Machine) : Outcome :=
  if m.isWaiting then ⟨.done, m, []⟩
  else match m.nextInstruction? with
    | none =>
      let e := .unknownOpcode m.fetch.word m.pc
      ⟨.failed e, m, [.note (.stopped e)]⟩
    | some i =>
      let trace : Event := .note (.executing m.pc i)
      match { m with pc := m.pc + 2 }.exactEffect m.pc i with
      | .error (.error e left) =>
        ⟨.failed e, { left with pc := m.pc }, [trace, .note (.stopped e)]⟩
      | .error .fault => ⟨.fault, m, [trace]⟩
      | .ok after =>
        match after.exactCount with
        | .ok (counted, events) => ⟨.done, counted, trace :: reports i ++ events⟩
        | .error _ => ⟨.fault, after, trace :: reports i⟩

/-- Executes an instruction that is not in memory. -/
def exactExecute (m : Machine) (i : Instruction) : Outcome :=
  match m.exactEffect m.pc i with
  | .ok after => ⟨.done, after, reports i⟩
  | .error (.error e left) => ⟨.failed e, left, []⟩
  | .error .fault => ⟨.fault, m, []⟩

/-- Executes instructions in order, up to the first that is not completed. -/
def exactExecuteAll (m : Machine) : List Instruction → Outcome
  | [] => ⟨.done, m, []⟩
  | i :: is =>
    match m.exactExecute i with
    | ⟨.done, after, events⟩ =>
      let rest := after.exactExecuteAll is
      { rest with events := events ++ rest.events }
    | stopped => stopped

/-- Replaces the program, which has to end inside memory. -/
def exactLoad (m : Machine) (rom : Array UInt8) : Outcome :=
  if Memory.maxRom < rom.size then ⟨.failed (.romTooLarge rom.size Memory.maxRom), m, []⟩
  else if Memory.programStart + rom.size ≤ Memory.size then m.load rom
  else ⟨.fault, m, []⟩

/-- Does one operation. -/
def exactPerform (m : Machine) : Operation → Outcome
  | .step => m.exactStep
  | .execute i => m.exactExecute i
  | .executeAll is => m.exactExecuteAll is
  | .press key => m.press key
  | .release key => m.release key
  | .load rom => m.exactLoad rom

/-- The outcomes of operations, each done to the machine that the one before left. -/
def exactHistory (m : Machine) : List Operation → List Outcome
  | [] => []
  | op :: ops =>
    let o := m.exactPerform op
    match o.verdict with
    | .fault => [o]
    | .done | .failed _ => o :: o.machine.exactHistory ops

/-! ### Counted steps -/

/-- Whether an operation is a step that counts: the machine does not wait, and the step is done. -/
def IsCounted (m : Machine) (op : Operation) : Prop :=
  op = .step ∧ m.isWaiting = false ∧ (m.perform op).verdict = .done

instance (m : Machine) (op : Operation) : Decidable (m.IsCounted op) :=
  inferInstanceAs (Decidable (_ ∧ _))

/-- The number of steps that count among operations. -/
def countedSteps (m : Machine) : List Operation → Nat
  | [] => 0
  | op :: ops => (if m.IsCounted op then 1 else 0) + (m.perform op).machine.countedSteps ops

theorem countedSteps_le (m : Machine) (ops : List Operation) :
    m.countedSteps ops ≤ ops.length := by
  induction ops generalizing m with
  | nil => exact Nat.le_refl 0
  | cons op ops ih =>
    have hrest := ih (m.perform op).machine
    rw [countedSteps, List.length_cons]
    split <;> omega

variable {m : Machine} {origin : UInt16} {i : Instruction}

theorem steps_of_changed {after : Machine} (h : Changed m i after) : after.steps = m.steps := by
  cases h <;> rfl

theorem steps_count (m : Machine) : m.count.1.steps = m.steps + 1 := by
  dsimp only [count]
  split <;> rfl

theorem steps_of_executed {o : Outcome} (ho : Executed m i o) : o.machine.steps = m.steps := by
  cases ho with
  | refused | fault => rfl
  | done heffect => exact steps_of_changed (changed_of_effect heffect)

theorem steps_executeAll (m : Machine) (is : List Instruction) :
    (m.executeAll is).machine.steps = m.steps := by
  induction is generalizing m with
  | nil => rfl
  | cons i is ih =>
    have hi := steps_of_executed (executed m i)
    rw [executeAll_cons]
    split
    · exact (ih _).trans hi
    · exact hi

theorem steps_of_stepped {o : Outcome} (ho : Stepped m o) :
    o.machine.steps = m.steps + if m.isWaiting = false ∧ o.verdict = .done then 1 else 0 := by
  cases ho with
  | waits hw => simp [hw]
  | unknown hw => simp [hw]
  | refused hw => simp [hw]
  | ran hw hnext hfree heffect =>
    have hmoved := steps_of_changed (changed_of_effect heffect)
    simp [hw, steps_count, hmoved]

/-- Only steps that count change the number of steps. -/
theorem steps_perform (h : m.Bounded) (op : Operation) :
    (m.perform op).machine.steps = m.steps + if m.IsCounted op then 1 else 0 := by
  cases hop : op.isOutside with
  | true =>
    obtain ⟨memory, registers, pc, keypad, hafter⟩ := m.exists_perform_outside hop
    have hstep : op ≠ .step := fun h => by cases h ▸ hop
    rw [hafter, if_neg fun hcounted => hstep hcounted.1, UInt64.add_zero]
  | false =>
    cases op with
    | step => simpa [IsCounted, perform] using steps_of_stepped (stepped h)
    | execute i => simpa [IsCounted, perform] using steps_of_executed (executed m i)
    | executeAll is => simpa [IsCounted, perform] using steps_executeAll m is
    | press | release | load => cases hop

/-! ### Exact arithmetic is never missed -/

theorem fitting_of_lt {bound n : Nat} (h : n < bound) : fitting bound n = .ok n := if_pos h

theorem difference_one {v : UInt8} (h : v ≠ 0) : difference v.toNat 1 = .ok (v.toNat - 1) :=
  if_pos (UInt8.lt_iff_toNat_lt.1 (UInt8.pos_iff_ne_zero.2 h))

theorem ofNat_toNat_sub_one {v : UInt8} (h : v ≠ 0) : UInt8.ofNat (v.toNat - 1) = v - 1 := by
  have hpos : 1 ≤ v.toNat := UInt8.lt_iff_toNat_lt.1 (UInt8.pos_iff_ne_zero.2 h)
  rw [UInt8.ofNat_sub hpos, UInt8.ofNat_toNat]
  rfl

theorem exactPush_of_lt (s : CallStack) (a : UInt16) (h : s.pointer.toNat + 1 < 16) :
    exactPush s (s.pointer.toNat + 1) a =
      .ok ⟨s.slots.set (s.pointer.toNat + 1) a, s.pointer + 1⟩ := by
  rw [exactPush, dif_pos h, UInt8.ofNat_add, UInt8.ofNat_toNat]
  rfl

theorem exactEffect_ret (hp : m.stack.pointer.toNat ≤ 15) :
    m.exactEffect origin .ret = m.effect origin .ret := by
  rw [exactEffect, effect]
  by_cases hpointer : m.stack.pointer = 0
  · rw [if_pos hpointer, if_pos hpointer]
  · obtain ⟨a, htop⟩ := m.stack.exists_top? hp
    rw [if_neg hpointer, if_neg hpointer, htop, difference_one hpointer]
    simp only [checked, ok_bind, ofNat_toNat_sub_one hpointer]
    rfl

theorem exactEffect_call (target : UInt16) :
    m.exactEffect origin (.call target) = m.effect origin (.call target) := by
  rw [exactEffect, effect]
  by_cases hfull : m.stack.pointer.toNat + 1 < 16
  · rw [if_neg (Nat.not_le.2 hfull), fitting_of_lt (by omega), ok_bind,
      exactPush_of_lt m.stack m.pc hfull, CallStack.push?, dif_pos hfull]
    rfl
  · rw [if_pos (Nat.le_of_not_lt hfull), CallStack.push?, dif_neg hfull]

theorem exactEffect_jumpIndexed {base : UInt16} (hbase : base.toNat < 4096) :
    m.exactEffect origin (.jumpIndexed base) = m.effect origin (.jumpIndexed base) := by
  have hv := (m.register 0).toNat_lt
  have hsum : UInt16.ofNat (base.toNat + (m.register 0).toNat) =
      base + (m.register 0).toUInt16 := by
    rw [UInt16.ofNat_add, UInt16.ofNat_toNat, UInt16.ofNat_uInt8ToNat]
  rw [exactEffect, effect, get_eq m (by decide)]
  simp only [ok_bind, fitting_of_lt (show base.toNat + (m.register 0).toNat < 65536 by omega), hsum,
    jumpTarget]
  cases m.settings.jumps <;> rfl

theorem exactEffect_glyph {x : UInt8} (hx : x.toNat < 16) :
    m.exactEffect origin (.glyph x) = m.effect origin (.glyph x) := by
  have hv := (m.register x).toNat_lt
  have hproduct : UInt16.ofNat (Font.glyphSize * (m.register x).toNat) =
      Font.address (m.register x) := by
    rw [UInt16.ofNat_mul, UInt16.ofNat_uInt8ToNat, Font.address]
  rw [exactEffect, effect, get_eq m hx]
  simp only [ok_bind, hproduct,
    fitting_of_lt
      (show Font.glyphSize * (m.register x).toNat < 65536 by rw [Font.glyphSize]; omega)]

theorem exactEffect_eq (hi : i.InRange) (hp : m.stack.pointer.toNat ≤ 15) :
    m.exactEffect origin i = m.effect origin i := by
  cases i with
  | ret => exact exactEffect_ret hp
  | call target => exact exactEffect_call target
  | jumpIndexed base => exact exactEffect_jumpIndexed (hi (.addr base) (List.mem_singleton_self _))
  | glyph x => exact exactEffect_glyph (hi (.reg x) (List.mem_singleton_self _))
  | _ => rfl

theorem exactTick_eq (m : Machine) : m.exactTick = .ok m.tick := by
  rw [exactTick, tick]
  by_cases hsound : m.sound = 0
  · simp only [hsound, countDown]
    rfl
  · have hpos : 1 ≤ m.sound.toNat := UInt8.lt_iff_toNat_lt.1 (UInt8.pos_iff_ne_zero.2 hsound)
    have hone : m.sound.toNat - 1 = 0 ↔ m.sound = 1 := by
      rw [← UInt8.toNat_inj]
      simp only [UInt8.reduceToNat]
      omega
    simp only [if_neg hsound, difference_one hsound, ok_bind, ofNat_toNat_sub_one hsound, hone,
      countDown]
    rfl

theorem exactCount_eq (hspeed : m.settings.speed ≠ 0) (hsteps : m.steps.toNat + 1 < 2 ^ 64) :
    m.exactCount = .ok m.count := by
  have hcounted : UInt64.ofNat (m.steps.toNat + 1) = m.steps + 1 := by
    rw [UInt64.ofNat_add, UInt64.ofNat_toNat]
    rfl
  have hmod : (m.steps + 1) % m.settings.speed.toUInt64 = 0 ↔
      (m.steps.toNat + 1) % m.settings.speed.toNat = 0 := by
    rw [← UInt64.toNat_inj, UInt64.toNat_mod, UInt64.toNat_add, UInt32.toNat_toUInt64]
    simp only [UInt64.reduceToNat, Nat.mod_eq_of_lt hsteps]
  rw [exactCount, count, fitting_of_lt hsteps, ok_bind, if_neg hspeed]
  simp only [hcounted, hmod, exactTick_eq]
  split <;> rfl

theorem exactStep_eq (h : m.Bounded) (hsteps : m.IsCounted .step → m.steps.toNat + 1 < 2 ^ 64) :
    m.exactStep = m.step := by
  cases hw : m.isWaiting with
  | true => rw [exactStep, step, if_pos hw, if_pos hw]
  | false =>
    cases hnext : m.nextInstruction? with
    | none => simp only [exactStep, step, hw, hnext]
    | some i =>
      have hi := Instruction.inRange_of_decode? hnext
      have hexact : { m with pc := m.pc + 2 }.exactEffect m.pc i =
          { m with pc := m.pc + 2 }.effect m.pc i :=
        exactEffect_eq hi h.pointer_le
      simp only [exactStep, step, hw, hnext, hexact, if_neg h.speed_ne_zero]
      cases heffect : { m with pc := m.pc + 2 }.effect m.pc i with
      | error s => cases s <;> rfl
      | ok after =>
        have hchanged := changed_of_effect heffect
        have hspeed : after.settings.speed ≠ 0 := settings_effect heffect ▸ h.speed_ne_zero
        have hcounted : m.IsCounted .step := by
          refine ⟨rfl, hw, ?_⟩
          simp only [perform, step, hw, hnext, heffect, if_neg h.speed_ne_zero,
            if_neg Bool.false_ne_true]
        have hafter : after.steps.toNat + 1 < 2 ^ 64 := by
          rw [steps_of_changed hchanged]
          exact hsteps hcounted
        simp only [exactCount_eq hspeed hafter]

theorem exactExecute_eq (hi : i.InRange) (hp : m.stack.pointer.toNat ≤ 15) :
    m.exactExecute i = m.execute i := by
  rw [exactExecute, execute]
  rcases hresult : m.effect m.pc i with (_ | _) | _ <;>
    simp only [exactEffect_eq hi hp, hresult]

theorem exactExecuteAll_eq (h : m.WellFormed) {is : List Instruction}
    (his : ∀ i ∈ is, i.InRange) : m.exactExecuteAll is = m.executeAll is := by
  induction is generalizing m with
  | nil => rfl
  | cons i is ih =>
    obtain ⟨hi, his⟩ := List.forall_mem_cons.1 his
    have hafter := (h.of_executed hi (executed m i)).2
    rw [exactExecuteAll, executeAll, exactExecute_eq hi h.pointer_le]
    cases ho : m.execute i with
    | mk verdict after events =>
      rw [ho] at hafter
      cases verdict with
      | done => simp only [ih hafter his]
      | failed e => rfl
      | fault => rfl

theorem exactLoad_eq (m : Machine) (rom : Array UInt8) : m.exactLoad rom = m.load rom := by
  by_cases hrom : Memory.maxRom < rom.size
  · rw [exactLoad, if_pos hrom, load, if_pos hrom]
  · have hfits : Memory.programStart + rom.size ≤ Memory.size := by
      simp only [Memory.maxRom, Memory.programStart, Memory.size] at hrom ⊢
      omega
    rw [exactLoad, if_neg hrom, if_pos hfits]

theorem exactPerform_eq (h : m.WellFormed) {op : Operation} (hop : op.InRange)
    (hsteps : m.IsCounted op → m.steps.toNat + 1 < 2 ^ 64) : m.exactPerform op = m.perform op := by
  cases op with
  | step => exact exactStep_eq h.toBounded hsteps
  | execute i => exact exactExecute_eq hop h.pointer_le
  | executeAll is => exact exactExecuteAll_eq h hop
  | press | release => rfl
  | load rom => exact exactLoad_eq m rom

theorem exactHistory_eq (h : m.WellFormed) {ops : List Operation} (hops : ∀ op ∈ ops, op.InRange)
    (hsteps : m.steps.toNat + m.countedSteps ops < 2 ^ 64) :
    m.exactHistory ops = m.history ops := by
  induction ops generalizing m with
  | nil => rfl
  | cons op ops ih =>
    obtain ⟨hop, hops⟩ := List.forall_mem_cons.1 hops
    obtain ⟨-, hafter⟩ := h.perform hop
    rw [countedSteps] at hsteps
    have hone : m.IsCounted op → m.steps.toNat + 1 < 2 ^ 64 := by
      intro hcounted
      rw [if_pos hcounted] at hsteps
      omega
    have hrest : (m.perform op).machine.steps.toNat +
        (m.perform op).machine.countedSteps ops < 2 ^ 64 := by
      rw [steps_perform h.toBounded op]
      by_cases hcounted : m.IsCounted op
      · rw [if_pos hcounted] at hsteps ⊢
        rw [UInt64.toNat_add]
        simp only [UInt64.reduceToNat]
        omega
      · rw [if_neg hcounted] at hsteps ⊢
        simpa using hsteps
    cases hv : (m.perform op).verdict <;>
      simp only [exactHistory, history, exactPerform_eq h hop hone, hv, ih hafter hops hrest]

/-- From any program and settings that are accepted, every history of operations in range stays
    within all tables and all types: it is the history with exact arithmetic, without a fault. Every
    operation keeps the machine well-formed, which is why. -/
theorem exactHistory_of_new {rom : Array UInt8} {settings : Settings} {entropy : ChaCha.Key}
    {events : List Event} (hnew : Machine.new rom settings entropy = .ok (m, events))
    {ops : List Operation} (hops : ∀ op ∈ ops, op.InRange)
    (hsteps : m.countedSteps ops < 2 ^ 64) :
    m.WellFormed ∧
      (∀ n : Machine, n.WellFormed → ∀ op : Operation, op.InRange →
        (n.perform op).machine.WellFormed) ∧
      m.exactHistory ops = m.history ops ∧
      (m.history ops).length = ops.length ∧
      ∀ o ∈ m.history ops, o.verdict ≠ .fault ∧ o.machine.WellFormed := by
  have hm := wellFormed_new hnew
  have hzero : m.steps.toNat = 0 := by
    obtain ⟨-, -, rfl, -⟩ := new_eq_ok_iff.1 hnew
    rfl
  have hexact := exactHistory_eq hm hops (by rwa [hzero, Nat.zero_add])
  exact ⟨hm, fun n hn op hop => (hn.perform hop).2, hexact, hm.history hops⟩

/-- A return without a call, two keys of which one does not exist, and a program that is too
    long. -/
theorem exactHistory_return_keys_load :
    ∃ m events, Machine.new #[0x00, 0xEE] {} (Vector.replicate 8 0) = .ok (m, events) ∧
      let ops : List Operation := [.step, .press 3, .release 200, .load (Array.replicate 4000 0)]
      m.exactHistory ops = m.history ops ∧ (m.history ops).length = 4 := by
  obtain ⟨m, events, hnew⟩ : ∃ m events,
      Machine.new #[0x00, 0xEE] {} (Vector.replicate 8 0) = .ok (m, events) :=
    ⟨_, _, new_eq_ok_iff.2 ⟨by decide, by decide, rfl, rfl⟩⟩
  refine ⟨m, events, hnew, ?_⟩
  intro ops
  have hops : ∀ op ∈ ops, op.InRange := by simp [ops, Operation.InRange]
  have hsteps := Nat.lt_of_le_of_lt (m.countedSteps_le ops) (show ops.length < 2 ^ 64 by decide)
  obtain ⟨-, -, hexact, hlength, -⟩ := exactHistory_of_new hnew hops hsteps
  exact ⟨hexact, hlength⟩

end Chip8.Machine
