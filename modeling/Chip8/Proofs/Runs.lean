import Chip8.Proofs.Exact
import Chip8.Proofs.StepErrors

/-! # What a run does

    Which instructions a run carries out, and what it reports, whoever asked for them: a step, or an
    instruction from outside. Each instruction is listed with the machine that it was carried out
    on. One that was refused is not listed, and a step of a waiting machine lists nothing. -/

namespace Chip8

/-- Whether an operation leaves it to the program which instructions are executed. -/
def Operation.IsDriving : Operation → Prop
  | .step | .press _ | .release _ | .load _ => True
  | .execute _ | .executeAll _ => False

theorem Operation.IsDriving.inRange {op : Operation} (h : op.IsDriving) : op.InRange := by
  cases op with
  | execute | executeAll => cases h
  | _ => trivial

theorem Operation.IsDriving.eq_step_or_isOutside {op : Operation} (h : op.IsDriving) :
    op = .step ∨ op.isOutside = true := by
  cases op with
  | step => exact Or.inl rfl
  | execute | executeAll => cases h
  | press | release | load => exact Or.inr rfl

theorem Operation.ne_step_of_isOutside {op : Operation} (h : op.isOutside = true) : op ≠ .step := by
  rintro rfl
  cases h

namespace Machine

/-- The instructions from outside that are carried out, up to the first that is not. -/
def carriedOutAll (m : Machine) : List Instruction → List (Machine × Instruction)
  | [] => []
  | i :: is =>
    if (m.execute i).verdict = .done then (m, i) :: (m.execute i).machine.carriedOutAll is else []

/-- The instructions that an operation carries out. -/
def carriedOutBy (m : Machine) : Operation → List (Machine × Instruction)
  | .step => if m.IsCounted .step then m.nextInstruction?.toList.map (m, ·) else []
  | .execute i => m.carriedOutAll [i]
  | .executeAll is => m.carriedOutAll is
  | .press _ | .release _ | .load _ => []

/-- The instructions that operations carry out. -/
def carriedOut (m : Machine) : List Operation → List (Machine × Instruction)
  | [] => []
  | op :: ops => m.carriedOutBy op ++ (m.perform op).machine.carriedOut ops

/-- The events that operations report. -/
def events (m : Machine) : List Operation → List Event
  | [] => []
  | op :: ops => (m.perform op).events ++ (m.perform op).machine.events ops

/-- The number of beeps among them. -/
def beeps (m : Machine) (ops : List Operation) : Nat := (m.events ops).count .beep

theorem beeps_cons (m : Machine) (op : Operation) (ops : List Operation) :
    m.beeps (op :: ops) =
      (m.perform op).events.count .beep + (m.perform op).machine.beeps ops :=
  List.count_append

theorem executeAll_singleton (m : Machine) (i : Instruction) : m.executeAll [i] = m.execute i := by
  rw [executeAll_cons]
  split
  · rename_i hdone
    simp [executeAll, ← hdone]
  · rfl

variable {m : Machine} {i : Instruction}

/-- What a new machine starts with. -/
theorem start_of_new {rom : Array UInt8} {settings : Settings} {entropy : ChaCha.Key}
    {events : List Event} (h : Machine.new rom settings entropy = .ok (m, events)) :
    m.settings = settings ∧ m.steps = 0 ∧ m.sound = 0 ∧ m.keypad.awaited = none ∧
      m.fetch = Opcode.ofBytes (rom[0]?.getD 0) (rom[1]?.getD 0) := by
  obtain ⟨-, -, rfl, -⟩ := new_eq_ok_iff.1 h
  exact ⟨rfl, rfl, rfl, rfl, fetch_withProgram _ rom rfl⟩

theorem count_beep_reports (i : Instruction) : (reports i).count .beep = 0 := by
  cases i <;> rfl

/-- A step carries out nothing and leaves everything as it is, or it carries out the next
    instruction and counts. -/
theorem Stepped.cases (h : Stepped m m.step) :
    (¬ m.IsCounted .step ∧ m.carriedOutBy .step = [] ∧ m.step.machine = m ∧
      m.step.events.count .beep = 0) ∨
    ∃ i after, m.IsCounted .step ∧ m.nextInstruction? = some i ∧
      m.carriedOutBy .step = [(m, i)] ∧
      { m with pc := m.pc + 2 }.effect m.pc i = .ok after ∧ m.step.machine = after.count.1 ∧
      m.step.events.count .beep = after.count.2.count .beep := by
  simp only [carriedOutBy, IsCounted, perform, true_and]
  generalize m.step = o at h
  cases h with
  | waits hw => exact Or.inl ⟨by simp [hw], by simp [hw], rfl, rfl⟩
  | unknown => exact Or.inl ⟨by simp, by simp, rfl, rfl⟩
  | refused => exact Or.inl ⟨by simp, by simp, rfl, rfl⟩
  | @ran hw i after hnext hfree heffect =>
    refine Or.inr ⟨i, after, ⟨hw, rfl⟩, hnext, by simp [hw, hnext], heffect, rfl, ?_⟩
    rw [List.cons_append, List.count_cons, List.count_append, count_beep_reports, Nat.zero_add]
    rfl

/-- A step counts if it finds an instruction that is not refused. -/
theorem isCounted_step (h : m.Bounded) (hw : m.isWaiting = false)
    (hnext : m.nextInstruction? = some i) (hfree : m.refusal? m.pc i = none) :
    m.IsCounted .step := by
  have hstepped := stepped h
  refine ⟨rfl, hw, ?_⟩
  rw [perform]
  generalize m.step = o at hstepped
  cases hstepped with
  | waits hw' => cases hw.symm.trans hw'
  | unknown _ hnone => cases hnext.symm.trans hnone
  | refused _ hsome he =>
    cases hnext.symm.trans hsome
    cases hfree.symm.trans he
  | ran => rfl

theorem count_beep_executeAll (m : Machine) (is : List Instruction) :
    (m.executeAll is).events.count .beep = 0 := by
  induction is generalizing m with
  | nil => rfl
  | cons i is ih =>
    have hfirst : (m.execute i).events.count .beep = 0 := by
      have hexecuted := executed m i
      generalize m.execute i = o at hexecuted
      cases hexecuted with
      | refused | fault => rfl
      | done => exact count_beep_reports i
    rw [executeAll_cons]
    split
    · rw [List.count_append, hfirst, ih]
    · exact hfirst

/-- Only steps make a sound. -/
theorem count_beep_of_ne_step (m : Machine) {op : Operation} (h : op ≠ .step) :
    (m.perform op).events.count .beep = 0 := by
  cases op with
  | step => exact absurd rfl h
  | execute i =>
    rw [perform, ← executeAll_singleton]
    exact m.count_beep_executeAll [i]
  | executeAll is => exact m.count_beep_executeAll is
  | press key =>
    have hall : ∀ o, Pressed m key o → o.events.count .beep = 0 := by rintro _ ⟨⟩ <;> rfl
    exact hall _ (pressed m key)
  | release key =>
    have hall : ∀ o, Released m key o → o.events.count .beep = 0 := by rintro _ ⟨⟩ <;> rfl
    exact hall _ (released m key)
  | load rom =>
    have hall : ∀ o, Loaded m rom o → o.events.count .beep = 0 := by rintro _ ⟨⟩ <;> rfl
    exact hall _ (loaded m rom)

/-! ### One instruction -/

/-- The ways of carrying out an instruction, and the machine after it. -/
inductive CarriesOut (m : Machine) (i : Instruction) : Machine → Prop where
  | step (hcounted : m.IsCounted .step) (hnext : m.nextInstruction? = some i) :
      CarriesOut m i m.step.machine
  | execute (hdone : (m.execute i).verdict = .done) : CarriesOut m i (m.execute i).machine

theorem stepped_of_isCounted (h : m.IsCounted .step) : Stepped m m.step :=
  stepped_of_ne_fault fun hfault => Verdict.noConfusion (h.2.2.symm.trans hfault)

theorem executed_of_done (hdone : (m.execute i).verdict = .done) :
    m.effect m.pc i = .ok (m.execute i).machine := by
  have hexecuted := executed m i
  generalize m.execute i = o at hexecuted hdone
  cases hexecuted with
  | refused | fault => cases hdone
  | done heffect => exact heffect

theorem carriesOut_execute {after : Machine} (h : m.effect m.pc i = .ok after) :
    m.CarriesOut i (m.execute i).machine := by
  refine .execute ?_
  rw [execute, h]

/-- However an instruction is carried out, the machine is what it leaves, but for a count. -/
theorem CarriesOut.exists_effect {after : Machine} (h : m.CarriesOut i after) :
    ∃ n pc origin, { m with pc }.effect origin i = .ok n ∧
      ∃ steps delay sound, after = { n with steps, delay, sound } := by
  cases h with
  | execute hdone => exact ⟨_, m.pc, m.pc, executed_of_done hdone, _, _, _, rfl⟩
  | step hcounted hnext =>
    rcases (stepped_of_isCounted hcounted).cases with
      ⟨hidle, -⟩ | ⟨j, n, -, hj, -, heffect, hmachine, -⟩
    · exact absurd hcounted hidle
    · cases hnext.symm.trans hj
      rw [hmachine]
      exact ⟨n, _, _, heffect, n.exists_count⟩

/-! ### What runs keep -/

/-- A relation between a machine, the instructions that are carried out on it, and the machine after
    them, which is kept wherever nothing but instructions is carried out. -/
structure KeptByInstructions (P : Machine → List (Machine × Instruction) → Machine → Prop) :
    Prop where
  refl : ∀ m, P m [] m
  trans : ∀ {m n p l l'}, P m l n → P n l' p → P m (l ++ l') p
  effect : ∀ {m n : Machine} {pc origin : UInt16} {i : Instruction},
    { m with pc }.effect origin i = .ok n → P m [(m, i)] n
  count : ∀ m : Machine, P m [] m.count.1

/-- Such a relation that keys and loads keep as well, so that runs keep it. -/
structure KeptByRuns (P : Machine → List (Machine × Instruction) → Machine → Prop) : Prop
    extends KeptByInstructions P where
  outside : ∀ (m : Machine) {op : Operation}, op.isOutside = true → P m [] (m.perform op).machine

variable {P : Machine → List (Machine × Instruction) → Machine → Prop}

namespace KeptByInstructions

theorem executeAll (hP : KeptByInstructions P) (m : Machine) (is : List Instruction) :
    P m (m.carriedOutAll is) (m.executeAll is).machine := by
  induction is generalizing m with
  | nil => exact hP.refl m
  | cons i is ih =>
    have hexecuted := executed m i
    rw [carriedOutAll, executeAll_cons]
    generalize m.execute i = o at hexecuted
    cases hexecuted with
    | refused | fault => exact hP.refl m
    | done heffect => exact hP.trans (hP.effect heffect) (ih _)

theorem step (hP : KeptByInstructions P) (h : Stepped m m.step) :
    P m (m.carriedOutBy .step) m.step.machine := by
  rcases h.cases with ⟨-, hcarried, hmachine, -⟩ |
    ⟨i, after, -, -, hcarried, heffect, hmachine, -⟩
  · rw [hcarried, hmachine]
    exact hP.refl m
  · rw [hcarried, hmachine]
    exact hP.trans (hP.effect heffect) (hP.count after)

theorem perform (hP : KeptByInstructions P) {op : Operation} (hop : op.isOutside = false)
    (hstep : op = .step → Stepped m m.step) : P m (m.carriedOutBy op) (m.perform op).machine := by
  cases op with
  | step => exact hP.step (hstep rfl)
  | execute i =>
    rw [Machine.perform, ← executeAll_singleton]
    exact hP.executeAll m [i]
  | executeAll is => exact hP.executeAll m is
  | press | release | load => cases hop

end KeptByInstructions

namespace KeptByRuns

theorem perform (hP : KeptByRuns P) (hm : m.Bounded) (op : Operation) :
    P m (m.carriedOutBy op) (m.perform op).machine := by
  cases op with
  | step | execute | executeAll => exact hP.toKeptByInstructions.perform rfl fun _ => stepped hm
  | press | release | load => exact hP.outside m rfl

theorem after (hP : KeptByRuns P) (hm : m.Bounded) (ops : List Operation) :
    P m (m.carriedOut ops) (m.after ops) := by
  induction ops generalizing m with
  | nil => exact hP.refl m
  | cons op ops ih => exact hP.trans (hP.perform hm op) (ih (hm.perform op))

end KeptByRuns

end Machine

end Chip8
