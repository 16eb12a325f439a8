import Chip8.Proofs.Reachable

/-! # Errors of a step

    A step fails for one of three reasons: the word at the counter is no instruction, it is a call
    with all slots taken, or a return without a call. It then leaves everything as it was, and so
    fails again, whatever keys are pressed and released in between: keys do not matter to any of the
    three reasons, and a machine that does not wait keeps its registers when a key is pressed. -/

namespace Chip8

/-- Whether an operation is a step or a key event. -/
def Operation.IsInput : Operation → Prop
  | .step | .press _ | .release _ => True
  | .execute _ | .executeAll _ | .load _ => False

namespace Machine

/-- Why the next step fails, if it does. -/
def failure? (m : Machine) : Option Error :=
  if m.isWaiting then none
  else match m.nextInstruction? with
    | none => some (.unknownOpcode m.fetch.word m.pc)
    | some i => m.refusal? m.pc i

variable {m : Machine} {e : Error}

/-! ### The reasons -/

theorem toNat_fetch (m : Machine) :
    m.fetch.word.toNat = 256 * (m.memory.cells[m.pc.toNat % 4096]).toNat +
      (m.memory.cells[(m.pc.toNat + 1) % 4096]).toNat :=
  Opcode.toNat_word_ofBytes _ _

/-- The first word of a program. -/
theorem fetch_withProgram (m : Machine) (rom : Array UInt8) (hpc : m.pc = 0x200) :
    fetch { m with memory := m.memory.withProgram rom } =
      Opcode.ofBytes (rom[0]?.getD 0) (rom[1]?.getD 0) := by
  simp [fetch, hpc, Memory.read_withProgram, Memory.programStart]

theorem refusal?_eq_some_iff {origin : UInt16} {i : Instruction}
    (hp : m.stack.pointer.toNat ≤ 15) :
    m.refusal? origin i = some e ↔
      ((∃ target, i = .call target) ∧ m.stack.pointer = 15 ∧ e = .stackOverflow origin) ∨
        (i = .ret ∧ m.stack.pointer = 0 ∧ e = .stackUnderflow origin) := by
  have hfull : 15 ≤ m.stack.pointer.toNat ↔ m.stack.pointer = 15 := by
    rw [← UInt8.toNat_inj]
    simp only [UInt8.reduceToNat]
    omega
  cases i <;> simp [refusal?, hfull, eq_comm]

theorem failure?_eq_some_iff (h : m.Bounded) :
    m.failure? = some e ↔
      m.isWaiting = false ∧
        ((Instruction.decode? m.fetch = none ∧ e = .unknownOpcode m.fetch.word m.pc) ∨
          ((∃ target, Instruction.decode? m.fetch = some (.call target)) ∧
            m.stack.pointer = 15 ∧ e = .stackOverflow m.pc) ∨
          (Instruction.decode? m.fetch = some .ret ∧
            m.stack.pointer = 0 ∧ e = .stackUnderflow m.pc)) := by
  rw [failure?, nextInstruction?]
  cases m.isWaiting with
  | true => simp
  | false =>
    cases Instruction.decode? m.fetch with
    | none => simp [eq_comm]
    | some i => simp [refusal?_eq_some_iff h.pointer_le]

/-! ### What a failing step does -/

theorem verdict_of_stepped {o : Outcome} (ho : Stepped m o) :
    o.verdict ≠ .fault ∧ (o.verdict = .failed e ↔ m.failure? = some e) := by
  cases ho with
  | waits hw => simp [failure?, hw]
  | unknown hw hnext => simp [failure?, hw, hnext]
  | refused hw hnext he => simp [failure?, hw, hnext, he]
  | ran hw hnext hfree heffect => simp [failure?, hw, hnext, hfree]

/-- A step that fails changes nothing and makes no sound. -/
theorem unchanged_of_stepped {o : Outcome} (ho : Stepped m o) (he : o.verdict = .failed e) :
    o.machine = m ∧ Event.beep ∉ o.events := by
  cases ho with
  | waits | ran => cases he
  | unknown | refused => exact ⟨rfl, by simp⟩

theorem failure?_step (h : m.Bounded) (he : m.failure? = some e) :
    m.step.machine.failure? = some e := by
  have hverdict := (verdict_of_stepped (stepped h)).2.2 he
  rw [(unchanged_of_stepped (stepped h) hverdict).1, he]

/-! ### Keys in between -/

/-- Keys do not matter to a machine that does not wait before or after. -/
theorem failure?_withKeypad (he : m.failure? = some e) {keypad : Keypad}
    (hkeypad : keypad.awaited = none) : { m with keypad }.failure? = some e := by
  rw [← he]
  unfold failure? at he ⊢
  split at he
  · cases he
  · rename_i hw
    rw [if_neg hw, if_neg (by simp [isWaiting, Keypad.isWaiting, hkeypad])]
    rfl

theorem awaited_of_failure? (he : m.failure? = some e) : m.keypad.awaited = none := by
  unfold failure? at he
  split at he
  · cases he
  · rename_i hw
    simpa [isWaiting, Keypad.isWaiting] using hw

theorem failure?_of_pressed {key : UInt8} {o : Outcome} (ho : Pressed m key o)
    (he : m.failure? = some e) : o.machine.failure? = some e := by
  cases ho with
  | ignored => exact he
  | noticed => exact failure?_withKeypad he rfl
  | resumed _ hawaited | fault _ hawaited => cases (awaited_of_failure? he).symm.trans hawaited

theorem failure?_of_released {key : UInt8} {o : Outcome} (ho : Released m key o)
    (he : m.failure? = some e) : o.machine.failure? = some e := by
  cases ho with
  | ignored => exact he
  | noticed => exact failure?_withKeypad he (awaited_of_failure? he)

theorem failure?_perform (h : m.Bounded) (he : m.failure? = some e) {op : Operation}
    (hop : op.IsInput) : (m.perform op).machine.failure? = some e := by
  cases op with
  | step => exact failure?_step h he
  | press key => exact failure?_of_pressed (pressed m key) he
  | release key => exact failure?_of_released (released m key) he
  | execute | executeAll | load => cases hop

theorem failure?_after (h : m.Bounded) (he : m.failure? = some e) {ops : List Operation}
    (hops : ∀ op ∈ ops, op.IsInput) : (m.after ops).Bounded ∧ (m.after ops).failure? = some e := by
  induction ops generalizing m with
  | nil => exact ⟨h, he⟩
  | cons op ops ih =>
    obtain ⟨hop, hops⟩ := List.forall_mem_cons.1 hops
    exact ih (h.perform op) (failure?_perform h he hop) hops

/-- The errors of a step: which they are and when, that nothing else has happened, and that every
    later step fails alike, after any further steps and key events. -/
theorem step_error {allowed : Operation → Prop} (h : Reachable allowed m) :
    m.step.verdict ≠ .fault ∧
      m.fetch.word.toNat = 256 * (m.memory.cells[m.pc.toNat % 4096]).toNat +
        (m.memory.cells[(m.pc.toNat + 1) % 4096]).toNat ∧
      (∀ e, m.step.verdict = .failed e ↔
        m.isWaiting = false ∧
          ((Instruction.decode? m.fetch = none ∧ e = .unknownOpcode m.fetch.word m.pc) ∨
            ((∃ target, Instruction.decode? m.fetch = some (.call target)) ∧
              m.stack.pointer = 15 ∧ e = .stackOverflow m.pc) ∨
            (Instruction.decode? m.fetch = some .ret ∧
              m.stack.pointer = 0 ∧ e = .stackUnderflow m.pc))) ∧
      ∀ e, m.step.verdict = .failed e →
        m.step.machine = m ∧ Event.beep ∉ m.step.events ∧
          ∀ ops : List Operation, (∀ op ∈ ops, op.IsInput) →
            (m.after ops).step.verdict = .failed e := by
  have hm := h.bounded
  have hverdict : ∀ e, m.step.verdict = .failed e ↔ m.failure? = some e :=
    fun e => (verdict_of_stepped (stepped hm)).2
  refine ⟨(verdict_of_stepped (e := .invalidSpeed) (stepped hm)).1, toNat_fetch m, ?_, ?_⟩
  · intro e
    rw [hverdict, failure?_eq_some_iff hm]
  · intro e he
    obtain ⟨hmachine, hsilent⟩ := unchanged_of_stepped (stepped hm) he
    refine ⟨hmachine, hsilent, ?_⟩
    intro ops hops
    obtain ⟨hafter, hfailure⟩ := failure?_after hm ((hverdict e).1 he) hops
    exact (verdict_of_stepped (stepped hafter)).2.2 hfailure

/-- A program that only returns, with keys pressed and released after its first step. -/
theorem step_error_return :
    ∃ m events, Machine.new #[0x00, 0xEE] {} (Vector.replicate 8 0) = .ok (m, events) ∧
      m.step.verdict = .failed (.stackUnderflow 0x200) ∧ m.step.machine = m ∧
      (m.after [.press 3, .step, .release 200]).step.verdict =
        .failed (.stackUnderflow 0x200) := by
  obtain ⟨m, events, hnew⟩ : ∃ m events,
      Machine.new #[0x00, 0xEE] {} (Vector.replicate 8 0) = .ok (m, events) :=
    ⟨_, _, new_eq_ok_iff.2 ⟨by decide, by decide, rfl, rfl⟩⟩
  have hm : Reachable (fun _ => True) m := .new hnew
  obtain ⟨-, -, hexact, hrest⟩ := step_error hm
  have hfails : m.step.verdict = .failed (.stackUnderflow 0x200) := by
    rw [hexact]
    obtain ⟨-, -, rfl, -⟩ := new_eq_ok_iff.1 hnew
    have hfetch := fetch_withProgram (blank {} (Vector.replicate 8 0)) #[0x00, 0xEE] rfl
    refine ⟨rfl, Or.inr (Or.inr ⟨?_, rfl, rfl⟩)⟩
    rw [hfetch]
    decide
  obtain ⟨hmachine, -, hsticky⟩ := hrest _ hfails
  exact ⟨m, events, hnew, hfails, hmachine, hsticky _ (by simp [Operation.IsInput])⟩

end Machine

end Chip8
