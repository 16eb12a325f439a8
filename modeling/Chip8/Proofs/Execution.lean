import Chip8.Machine.Step
import Chip8.Proofs.Drawing
import Chip8.Proofs.Operands

/-! # Execution

    What an instruction or a step can do, said once for all of them. An instruction whose operands
    are in range is refused for one of two reasons, with the machine untouched, or is carried out.
    What few instructions use, such as the stack, the timers and the keypad, makes up the periphery:
    all other instructions neither look at it nor touch it. A step is one of four things: a wait, an
    unknown word, a refused instruction, or an instruction carried out and counted. -/

namespace Chip8

/-- Whether an instruction stays within memory, registers, `I`, the counter and the screen. -/
def Instruction.isPlain : Instruction → Bool
  | .ret | .call _ | .random .. | .skipKeyDown _ | .skipKeyUp _ | .readDelay _ | .awaitKey _
  | .setDelay _ | .setSound _ => false
  | _ => true

/-- What few instructions use. -/
structure Periphery where
  stack : CallStack
  delay : UInt8
  sound : UInt8
  keypad : Keypad
  steps : UInt64
  generator : Generator

namespace CallStack

theorem push?_eq_none_iff (s : CallStack) (a : UInt16) :
    s.push? a = none ↔ 15 ≤ s.pointer.toNat := by
  simp only [push?, dite_eq_right_iff, reduceCtorEq, imp_false]
  omega

theorem exists_push? (s : CallStack) (a : UInt16) (h : s.pointer.toNat < 15) :
    ∃ t, s.push? a = some t ∧ t.pointer = s.pointer + 1 :=
  ⟨_, dif_pos (by omega), rfl⟩

theorem exists_top? (s : CallStack) (h : s.pointer.toNat ≤ 15) : ∃ a, s.top? = some a :=
  ⟨s.slots[s.pointer.toNat], by simp [top?]⟩

end CallStack

namespace Machine

variable (m : Machine) (origin : UInt16) {x : UInt8}

/-! ### Access that succeeds -/

theorem set_eq (v : UInt8) (h : x.toNat < 16) :
    m.set x v = .ok { m with registers := m.registers.setLow x v } := by
  rw [set, Registers.set?_eq_setLow _ v h]
  rfl

theorem setWithFlag_eq (v : UInt8) (on : Bool) (h : x.toNat < 16) :
    m.setWithFlag x v on =
      .ok { m with registers := (m.registers.setLow x v).setFlag on } := by
  rw [setWithFlag, set_eq m v h]
  rfl

theorem upTo?_of_lt (r : Registers) (h : x.toNat < 16) :
    r.upTo? x = some (r.values.toList.take (x.toNat + 1)) :=
  if_pos h

theorem exists_overwrite?_slice (r : Registers) (mem : Memory) (a : Nat) (h : x.toNat < 16) :
    ∃ s, r.overwrite? (mem.slice a (x.toNat + 1)) = some s :=
  ⟨_, if_pos (by rw [Memory.length_slice]; omega)⟩

theorem checked_some {α : Type} (a : α) : checked (some a) = .ok a := rfl

theorem eq_some_of_checked {α : Type} {o : Option α} {a : α} (h : checked o = .ok a) :
    o = some a := by
  cases o with
  | none => cases h
  | some b => exact congrArg some (Except.ok.inj h)

theorem ok_bind {α β : Type} (a : α) (f : α → Except Stop β) : (Except.ok a >>= f) = f a := rfl

/-! ### Refused or carried out -/

/-- Why an instruction is refused, if it is. -/
def refusal? : Instruction → Option Error
  | .ret => if m.stack.pointer = 0 then some (.stackUnderflow origin) else none
  | .call _ => if 15 ≤ m.stack.pointer.toNat then some (.stackOverflow origin) else none
  | _ => none

theorem refusal?_call_eq_none_iff (target : UInt16) :
    m.refusal? origin (.call target) = none ↔ m.stack.pointer.toNat < 15 := by
  simp only [refusal?, ite_eq_right_iff, reduceCtorEq, imp_false, Nat.not_le]

theorem refusal?_ret_eq_none_iff : m.refusal? origin .ret = none ↔ m.stack.pointer ≠ 0 := by
  simp only [refusal?, ite_eq_right_iff, reduceCtorEq, imp_false, ne_eq]

theorem effect_of_refusal? {i : Instruction} {e : Error} (h : m.refusal? origin i = some e) :
    m.effect origin i = .error (.error e m) := by
  unfold refusal? at h
  split at h
  · split at h <;> cases h
    rename_i hempty
    rw [effect, if_pos hempty]
    rfl
  · split at h <;> cases h
    rename_i hfull
    rw [effect, (CallStack.push?_eq_none_iff _ _).2 hfull]
    rfl
  · cases h

theorem exists_effect_call (target : UInt16) (h : m.stack.pointer.toNat < 15) :
    ∃ stack, m.stack.push? m.pc = some stack ∧ stack.pointer = m.stack.pointer + 1 ∧
      m.effect origin (.call target) = .ok { m with pc := target, stack } := by
  obtain ⟨stack, hpush, hpointer⟩ := m.stack.exists_push? m.pc h
  exact ⟨stack, hpush, hpointer, by rw [effect, hpush]; rfl⟩

theorem exists_effect_ret (hle : m.stack.pointer.toNat ≤ 15) (h : m.stack.pointer ≠ 0) :
    ∃ a, m.stack.top? = some a ∧
      m.effect origin .ret = .ok { m with pc := a, stack := m.stack.drop } := by
  obtain ⟨a, htop⟩ := m.stack.exists_top? hle
  exact ⟨a, htop, by rw [effect, if_neg h, htop]; rfl⟩

/-- An instruction with operands in range that is not refused is carried out. -/
theorem exists_effect_of_inRange {i : Instruction} (hi : i.InRange)
    (hp : m.stack.pointer.toNat ≤ 15) (h : m.refusal? origin i = none) :
    ∃ after, m.effect origin i = .ok after := by
  cases i with
  | call target =>
    have hfree := (m.refusal?_call_eq_none_iff origin target).1 h
    obtain ⟨_, -, -, heq⟩ := m.exists_effect_call origin target hfree
    exact ⟨_, heq⟩
  | ret =>
    have hpointer := (m.refusal?_ret_eq_none_iff origin).1 h
    obtain ⟨_, -, heq⟩ := m.exists_effect_ret origin hp hpointer
    exact ⟨_, heq⟩
  | draw x y rows =>
    simp only [Instruction.InRange, Instruction.operands, List.forall_mem_cons, Operand.InRange]
      at hi
    obtain ⟨hit, screen, hdraw, -⟩ := m.drawSprite_eq (m.register x) (m.register y) rows
    rw [effect, get_eq m hi.1, get_eq m hi.2.1]
    exact ⟨_, hdraw⟩
  | load x =>
    simp only [Instruction.InRange, Instruction.operands, List.forall_mem_cons, Operand.InRange]
      at hi
    obtain ⟨registers, hr⟩ := exists_overwrite?_slice m.registers m.memory m.index.toNat hi.1
    rw [effect, hr]
    exact ⟨_, rfl⟩
  | clearScreen | jump | setIndex | awaitKey => exact ⟨_, rfl⟩
  | jumpIndexed base =>
    rw [effect, get_eq m (by decide)]
    exact ⟨_, rfl⟩
  | _ =>
    simp only [Instruction.InRange, Instruction.operands, List.forall_mem_cons, Operand.InRange]
      at hi
    simp only [effect, get_eq, set_eq, setWithFlag_eq, upTo?_of_lt, checked_some, hi, ok_bind]
    exact ⟨_, rfl⟩

/-! ### The periphery -/

/-- The periphery of a machine. -/
def periphery : Periphery := ⟨m.stack, m.delay, m.sound, m.keypad, m.steps, m.generator⟩

/-- The machine with another periphery. -/
def withPeriphery (p : Periphery) : Machine :=
  { m with
    stack := p.stack, delay := p.delay, sound := p.sound
    keypad := p.keypad, steps := p.steps, generator := p.generator }

variable (p : Periphery)

theorem get_withPeriphery (x : UInt8) : (m.withPeriphery p).get x = m.get x := rfl

theorem set_withPeriphery (x v : UInt8) :
    (m.withPeriphery p).set x v = (·.withPeriphery p) <$> m.set x v := by
  simp only [set, map_bind, map_pure]
  rfl

theorem setWithFlag_withPeriphery (x v : UInt8) (on : Bool) :
    (m.withPeriphery p).setWithFlag x v on = (·.withPeriphery p) <$> m.setWithFlag x v on := by
  simp only [setWithFlag, set_withPeriphery, map_bind, bind_map_left, map_pure]
  rfl

theorem skipIf_withPeriphery (c : Bool) :
    (m.withPeriphery p).skipIf c = (m.skipIf c).withPeriphery p := by
  cases c <;> rfl

theorem drawSprite_withPeriphery (x y rows : UInt8) :
    (m.withPeriphery p).drawSprite x y rows = (·.withPeriphery p) <$> m.drawSprite x y rows := by
  simp only [drawSprite, map_bind, map_pure]
  rfl

/-- A plain instruction neither looks at the periphery nor touches it. -/
theorem effect_withPeriphery {i : Instruction} (hi : i.isPlain = true) :
    (m.withPeriphery p).effect origin i = (·.withPeriphery p) <$> m.effect origin i := by
  cases i with
  | ret | call | random | skipKeyDown | skipKeyUp | readDelay | awaitKey | setDelay | setSound =>
    cases hi
  | _ =>
    simp only [effect, get_withPeriphery, set_withPeriphery, setWithFlag_withPeriphery,
      skipIf_withPeriphery, drawSprite_withPeriphery, map_bind, map_pure] <;> rfl

/-! ### What an instruction changes -/

/-- The machines that an instruction can leave when it is carried out. -/
inductive Changed (m : Machine) : Instruction → Machine → Prop where
  | plain {i : Instruction} (hi : i.isPlain = true) (memory : Memory) (registers : Registers)
      (index pc : UInt16) (screen : Screen) :
      Changed m i { m with memory, registers, index, pc, screen }
  | ret {a : UInt16} (hpointer : m.stack.pointer ≠ 0) (htop : m.stack.top? = some a) :
      Changed m .ret { m with pc := a, stack := m.stack.drop }
  | call {target : UInt16} {stack : CallStack} (hpush : m.stack.push? m.pc = some stack) :
      Changed m (.call target) { m with pc := target, stack }
  | random (x mask : UInt8) (registers : Registers) :
      Changed m (.random x mask) { m with registers, generator := m.generator.next.2 }
  | skipKeyDown (x : UInt8) (pc : UInt16) : Changed m (.skipKeyDown x) { m with pc }
  | skipKeyUp (x : UInt8) (pc : UInt16) : Changed m (.skipKeyUp x) { m with pc }
  | readDelay (x : UInt8) (registers : Registers) : Changed m (.readDelay x) { m with registers }
  | awaitKey (x : UInt8) : Changed m (.awaitKey x) { m with keypad := m.keypad.await x }
  | setDelay (x delay : UInt8) : Changed m (.setDelay x) { m with delay }
  | setSound (x sound : UInt8) : Changed m (.setSound x) { m with sound }

theorem settings_skipIf (c : Bool) : (m.skipIf c).settings = m.settings := by
  cases c <;> rfl

theorem map_settings_set (x v : UInt8) :
    (·.settings) <$> m.set x v = (fun _ => m.settings) <$> m.set x v := by
  simp only [set, map_bind, map_pure]

theorem map_settings_setWithFlag (x v : UInt8) (on : Bool) :
    (·.settings) <$> m.setWithFlag x v on = (fun _ => m.settings) <$> m.setWithFlag x v on := by
  simp only [setWithFlag, set, bind_assoc, pure_bind, map_bind, map_pure]
  rfl

variable {m origin} {after : Machine} {i : Instruction}

theorem settings_of_isPlain (hi : i.isPlain = true) (h : m.effect origin i = .ok after) :
    after.settings = m.settings := by
  have hmap : (·.settings) <$> m.effect origin i = (fun _ => m.settings) <$> m.effect origin i := by
    cases i with
    | ret | call | random | skipKeyDown | skipKeyUp | readDelay | awaitKey | setDelay | setSound =>
      cases hi
    | _ =>
      simp only [effect, map_settings_set, map_settings_setWithFlag, settings_skipIf, drawSprite,
        map_bind, map_pure] <;> rfl
  rw [h] at hmap
  exact Except.ok.inj hmap

theorem periphery_of_isPlain (hi : i.isPlain = true) (h : m.effect origin i = .ok after) :
    after.periphery = m.periphery := by
  have heq := m.effect_withPeriphery origin m.periphery hi
  rw [show m.withPeriphery m.periphery = m from rfl, h] at heq
  have hafter : after = after.withPeriphery m.periphery := Except.ok.inj heq
  rw [hafter]
  rfl

theorem exists_of_bind_eq_ok {α β : Type} {x : Except Stop α} {f : α → Except Stop β} {b : β}
    (h : (x >>= f) = .ok b) : ∃ a, x = .ok a ∧ f a = .ok b := by
  cases x with
  | error e => cases h
  | ok a => exact ⟨a, rfl, h⟩

theorem exists_of_set_eq_ok {v : UInt8} (h : m.set x v = .ok after) :
    ∃ registers, after = { m with registers } := by
  obtain ⟨registers, -, hr⟩ := exists_of_bind_eq_ok h
  exact ⟨registers, (Except.ok.inj hr).symm⟩

theorem exists_skipIf (m : Machine) (c : Bool) : ∃ pc, m.skipIf c = { m with pc } := by
  cases c
  · exact ⟨m.pc, rfl⟩
  · exact ⟨m.pc + 2, rfl⟩

theorem changed_of_isPlain (hi : i.isPlain = true) (h : m.effect origin i = .ok after) :
    Changed m i after := by
  have hs := settings_of_isPlain hi h
  have hp := periphery_of_isPlain hi h
  have hafter : after =
      { m with
        memory := after.memory, registers := after.registers, index := after.index
        pc := after.pc, screen := after.screen } := by
    cases after
    simp only [periphery, Periphery.mk.injEq] at hs hp
    obtain ⟨rfl, rfl, rfl, rfl, rfl, rfl⟩ := hp
    rw [← hs]
  rw [hafter]
  exact .plain hi ..

theorem changed_of_effect (h : m.effect origin i = .ok after) : Changed m i after := by
  cases i with
  | ret =>
    rw [effect] at h
    split at h
    · cases h
    · rename_i hpointer
      obtain ⟨a, ha, hret⟩ := exists_of_bind_eq_ok h
      cases htop : m.stack.top? with
      | none => rw [htop] at ha; cases ha
      | some b =>
        rw [htop] at ha
        cases ha
        cases hret
        exact .ret hpointer htop
  | call target =>
    rw [effect] at h
    split at h
    · rename_i stack hpush
      cases h
      exact .call hpush
    · cases h
  | random x mask =>
    obtain ⟨registers, rfl⟩ := exists_of_set_eq_ok h
    exact .random x mask registers
  | skipKeyDown x =>
    obtain ⟨v, -, hskip⟩ := exists_of_bind_eq_ok h
    obtain ⟨pc, hpc⟩ := m.exists_skipIf (m.keypad.isDown v)
    cases hskip
    exact hpc ▸ .skipKeyDown x pc
  | skipKeyUp x =>
    obtain ⟨v, -, hskip⟩ := exists_of_bind_eq_ok h
    obtain ⟨pc, hpc⟩ := m.exists_skipIf (!m.keypad.isDown v)
    cases hskip
    exact hpc ▸ .skipKeyUp x pc
  | readDelay x =>
    obtain ⟨registers, rfl⟩ := exists_of_set_eq_ok h
    exact .readDelay x registers
  | awaitKey x =>
    cases h
    exact .awaitKey x
  | setDelay x =>
    obtain ⟨v, -, hset⟩ := exists_of_bind_eq_ok h
    cases hset
    exact .setDelay x v
  | setSound x =>
    obtain ⟨v, -, hset⟩ := exists_of_bind_eq_ok h
    cases hset
    exact .setSound x v
  | _ => exact changed_of_isPlain rfl h

theorem settings_effect (h : m.effect origin i = .ok after) : after.settings = m.settings := by
  cases changed_of_effect h <;> rfl

/-! ### Errors -/

/-- A computation that may fault but is not refused. -/
def Unrefused {α : Type} (x : Except Stop α) : Prop := ∀ e left, x ≠ .error (.error e left)

theorem unrefused_pure {α : Type} (a : α) : Unrefused (pure a) := by
  intro e left h
  cases h

theorem unrefused_checked {α : Type} (o : Option α) : Unrefused (checked o) := by
  intro e left h
  cases o <;> cases h

theorem unrefused_bind {α β : Type} {x : Except Stop α} {f : α → Except Stop β}
    (hx : Unrefused x) (hf : ∀ a, Unrefused (f a)) : Unrefused (x >>= f) := by
  cases x with
  | error s =>
    intro e left h
    cases h
    exact hx e left rfl
  | ok a => exact hf a

theorem unrefused_get (m : Machine) (x : UInt8) : Unrefused (m.get x) := unrefused_checked _

theorem unrefused_set (m : Machine) (x v : UInt8) : Unrefused (m.set x v) :=
  unrefused_bind (unrefused_checked _) fun _ => unrefused_pure _

theorem unrefused_setWithFlag (m : Machine) (x v : UInt8) (on : Bool) :
    Unrefused (m.setWithFlag x v on) :=
  unrefused_bind (unrefused_set m x v) fun _ => unrefused_pure _

theorem unrefused_drawSprite (m : Machine) (x y rows : UInt8) :
    Unrefused (m.drawSprite x y rows) :=
  unrefused_bind (unrefused_checked _) fun _ => unrefused_pure _

theorem unrefused_effect (h : m.refusal? origin i = none) : Unrefused (m.effect origin i) := by
  cases i with
  | ret =>
    rw [effect, if_neg ((m.refusal?_ret_eq_none_iff origin).1 h)]
    exact unrefused_bind (unrefused_checked _) fun _ => unrefused_pure _
  | call target =>
    have hfree := (m.refusal?_call_eq_none_iff origin target).1 h
    obtain ⟨stack, hpush, -⟩ := m.stack.exists_push? m.pc hfree
    rw [effect, hpush]
    exact unrefused_pure _
  | _ =>
    simp only [effect, unrefused_pure, unrefused_checked, unrefused_get, unrefused_set,
      unrefused_setWithFlag, unrefused_drawSprite, unrefused_bind, implies_true]

/-- An error has one of two reasons, and is raised before anything is changed. -/
theorem refusal?_of_effect {e : Error} {left : Machine}
    (h : m.effect origin i = .error (.error e left)) :
    left = m ∧ m.refusal? origin i = some e := by
  cases hr : m.refusal? origin i with
  | none => exact absurd h (unrefused_effect hr e left)
  | some e' =>
    rw [m.effect_of_refusal? origin hr] at h
    cases h
    exact ⟨rfl, rfl⟩

/-! ### Steps -/

/-- What holds of every machine that can be built: the pointer selects a slot, and a tick takes at
    least one step. -/
structure Bounded (m : Machine) : Prop where
  pointer_le : m.stack.pointer.toNat ≤ 15
  speed_ne_zero : m.settings.speed ≠ 0

/-- The outcomes of a step. -/
inductive Stepped (m : Machine) : Outcome → Prop where
  | waits (hw : m.isWaiting = true) : Stepped m ⟨.done, m, []⟩
  | unknown (hw : m.isWaiting = false) (hnext : m.nextInstruction? = none) :
      Stepped m ⟨.failed (.unknownOpcode m.fetch.word m.pc), m,
        [.note (.stopped (.unknownOpcode m.fetch.word m.pc))]⟩
  | refused (hw : m.isWaiting = false) {i : Instruction} {e : Error}
      (hnext : m.nextInstruction? = some i) (he : m.refusal? m.pc i = some e) :
      Stepped m ⟨.failed e, m, [.note (.executing m.pc i), .note (.stopped e)]⟩
  | ran (hw : m.isWaiting = false) {i : Instruction} {after : Machine}
      (hnext : m.nextInstruction? = some i) (hfree : m.refusal? m.pc i = none)
      (heffect : { m with pc := m.pc + 2 }.effect m.pc i = .ok after) :
      Stepped m ⟨.done, after.count.1,
        .note (.executing m.pc i) :: reports i ++ after.count.2⟩

/-- Whatever the machine, a step that does not fault has one of these outcomes. -/
theorem stepped_of_ne_fault (h : m.step.verdict ≠ .fault) : Stepped m m.step := by
  rw [step] at h ⊢
  cases hw : m.isWaiting with
  | true => exact .waits hw
  | false =>
    rw [hw, if_neg Bool.false_ne_true] at h
    rw [if_neg Bool.false_ne_true]
    cases hnext : m.nextInstruction? with
    | none => exact .unknown hw hnext
    | some i =>
      cases heffect : { m with pc := m.pc + 2 }.effect m.pc i with
      | error s =>
        cases s with
        | error e left =>
          obtain ⟨rfl, he⟩ := refusal?_of_effect heffect
          simp only [heffect]
          exact .refused hw hnext he
        | fault =>
          simp only [hnext, heffect] at h
          exact absurd rfl h
      | ok after =>
        simp only [hnext, heffect] at h ⊢
        split at h
        · exact absurd rfl h
        · rename_i hspeed
          rw [if_neg hspeed]
          refine .ran hw hnext ?_ heffect
          cases hr : m.refusal? m.pc i with
          | none => rfl
          | some e =>
            cases (effect_of_refusal? { m with pc := m.pc + 2 } m.pc hr).symm.trans heffect

theorem Bounded.effect_next_ne_fault (h : m.Bounded) (hnext : m.nextInstruction? = some i) :
    { m with pc := m.pc + 2 }.effect m.pc i ≠ .error .fault := by
  intro hfault
  cases hr : m.refusal? m.pc i with
  | some e => cases (effect_of_refusal? { m with pc := m.pc + 2 } m.pc hr).symm.trans hfault
  | none =>
    obtain ⟨after, heffect⟩ := exists_effect_of_inRange { m with pc := m.pc + 2 } m.pc
      (Instruction.inRange_of_decode? hnext) h.pointer_le hr
    cases heffect.symm.trans hfault

theorem Bounded.step_ne_fault (h : m.Bounded) : m.step.verdict ≠ .fault := by
  intro hverdict
  rw [step] at hverdict
  split at hverdict
  · cases hverdict
  · split at hverdict
    · cases hverdict
    · rename_i hnext
      simp only [if_neg h.speed_ne_zero] at hverdict
      split at hverdict
      · cases hverdict
      · rename_i hfault
        exact h.effect_next_ne_fault hnext hfault
      · cases hverdict

theorem stepped (h : m.Bounded) : Stepped m m.step := stepped_of_ne_fault h.step_ne_fault

/-- The premises of an outcome decide the step. -/
theorem Stepped.step_eq (h : m.Bounded) {o : Outcome} (ho : Stepped m o) : m.step = o := by
  cases ho with
  | waits hw => exact if_pos hw
  | unknown hw hnext => simp only [step, hw, hnext, if_neg Bool.false_ne_true]
  | refused hw hnext he =>
    simp only [step, hw, hnext, if_neg Bool.false_ne_true,
      effect_of_refusal? { m with pc := m.pc + 2 } m.pc he]
  | ran hw hnext hfree heffect =>
    simp only [step, hw, hnext, heffect, if_neg h.speed_ne_zero, if_neg Bool.false_ne_true]

end Machine

end Chip8
