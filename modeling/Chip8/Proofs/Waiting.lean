import Chip8.Proofs.Runs

/-! # Waiting for a key

    A wait has one way in and one way out: a step that executes `awaitKey x` opens it, and the first
    press of a key that exists ends it. In between the machine is frozen: steps do nothing at all,
    and other events can only release keys and replace the program. The register that gets the key
    is the one of the instruction that opened the wait, since nothing in between touches it. Steps
    that do nothing can be added to a run or taken out of it, and nobody can tell. -/

namespace Chip8

/-- Whether an operation is the press of a key that exists. -/
def Operation.EndsWait : Operation → Prop
  | .press key => key.toNat < 16
  | _ => False

namespace Machine

/-- The next step will wait for a key, for register `x`. -/
structure Opens (m : Machine) (x : UInt8) : Prop where
  ready : m.isWaiting = false
  next : m.nextInstruction? = some (.awaitKey x)

/-- All that can be done to a machine that waits for register `x`, and what it changes. -/
structure Frozen (m : Machine) (x : UInt8) : Prop where
  step : m.step = ⟨.done, m, []⟩
  press_ignored : ∀ key : UInt8, 16 ≤ key.toNat →
    (m.press key).verdict = .failed (.invalidKey key) ∧ (m.press key).machine = m
  release_ignored : ∀ key : UInt8, 16 ≤ key.toNat →
    (m.release key).verdict = .failed (.invalidKey key) ∧ (m.release key).machine = m
  release : ∀ (key : UInt8) (hkey : key.toNat < 16),
    (m.release key).verdict = .done ∧
      (m.release key).machine =
        { m with keypad := { m.keypad with pressed := m.keypad.pressed.set key.toNat false } }
  load_refused : ∀ rom : Array UInt8, Memory.maxRom < rom.size → (m.load rom).machine = m
  load : ∀ rom : Array UInt8, rom.size ≤ Memory.maxRom →
    (m.load rom).machine = { m with memory := m.memory.withProgram rom, pc := 0x200 }
  press : ∀ (key : UInt8) (hkey : key.toNat < 16),
    x.toNat < 16 ∧ (m.press key).verdict = .done ∧
      (m.press key).machine =
        { m with
          registers := m.registers.setLow x key
          keypad := ⟨m.keypad.pressed.set key.toNat true, none⟩ }

/-- What is left of a waiting machine `m` by operations that do not end its wait. -/
structure Kept (m : Machine) (ops : List Operation) (n : Machine) : Prop where
  rest_eq : n = { m with memory := n.memory, pc := n.pc, keypad := n.keypad }
  awaited : n.keypad.awaited = m.keypad.awaited
  isKeyDown : ∀ key, n.isKeyDown key = (m.isKeyDown key && !ops.contains (.release key))
  program : (∀ rom, .load rom ∉ ops) → n.memory = m.memory ∧ n.pc = m.pc

/-- One list of operations is the other, but for steps while the machine waits. -/
inductive Stutter : Machine → List Operation → List Operation → Prop where
  | nil (m : Machine) : Stutter m [] []
  | both {m : Machine} (op : Operation) {ops ops' : List Operation}
      (h : Stutter (m.perform op).machine ops ops') : Stutter m (op :: ops) (op :: ops')
  | insert {m : Machine} (hw : m.isWaiting = true) {ops ops' : List Operation}
      (h : Stutter m ops ops') : Stutter m ops (.step :: ops')
  | delete {m : Machine} (hw : m.isWaiting = true) {ops ops' : List Operation}
      (h : Stutter m ops ops') : Stutter m (.step :: ops) ops'

/-- The outcomes of all operations but steps while the machine waits. -/
def activeOutcomes (m : Machine) : List Operation → List Outcome
  | [] => []
  | op :: ops =>
    let rest := (m.perform op).machine.activeOutcomes ops
    if m.isWaiting = true ∧ op = .step then rest else m.perform op :: rest

variable {m n : Machine} {x : UInt8} {op : Operation}

theorem isWaiting_eq_false_iff : m.isWaiting = false ↔ m.keypad.awaited = none := by
  rw [isWaiting, Keypad.isWaiting, Option.isSome_eq_false_iff, Option.isNone_iff_eq_none]

theorem isWaiting_of_awaited (hx : m.keypad.awaited = some x) : m.isWaiting = true :=
  Option.isSome_iff_exists.2 ⟨x, hx⟩

/-! ### The way in and the way out -/

theorem step_of_isWaiting (hw : m.isWaiting = true) : m.step = ⟨.done, m, []⟩ := if_pos hw

theorem keypad_of_changed {i : Instruction} (h : Changed m i n) :
    n.keypad = m.keypad ∨ ∃ x, i = .awaitKey x ∧ n.keypad = m.keypad.await x := by
  cases h with
  | awaitKey x => exact Or.inr ⟨x, rfl, rfl⟩
  | _ => exact Or.inl rfl

theorem Opens.step (h : m.Bounded) (hopens : m.Opens x) :
    m.step.verdict = .done ∧ m.step.machine.keypad.awaited = some x := by
  have hcounted := isCounted_step h hopens.ready hopens.next rfl
  refine ⟨hcounted.2.2, ?_⟩
  rcases (stepped h).cases with ⟨hidle, -⟩ | ⟨i, after, -, hnext, -, heffect, hmachine, -⟩
  · exact absurd hcounted hidle
  · cases hopens.next.symm.trans hnext
    cases heffect
    rw [hmachine, keypad_count]
    rfl

theorem awaited_step_iff (h : m.Bounded) :
    m.step.machine.keypad.awaited = some x ↔ m.keypad.awaited = some x ∨ m.Opens x := by
  constructor
  · intro hx
    rcases (stepped h).cases with ⟨-, -, hmachine, -⟩ |
      ⟨i, after, hcounted, hnext, -, heffect, hmachine, -⟩
    · exact Or.inl (hmachine ▸ hx)
    · rw [hmachine, keypad_count] at hx
      rcases keypad_of_changed (changed_of_effect heffect) with hkept | ⟨y, rfl, hawait⟩
      · rw [hkept] at hx
        exact Or.inl hx
      · rw [hawait] at hx
        cases hx
        exact Or.inr ⟨hcounted.2.1, hnext⟩
  · rintro (hx | hopens)
    · rw [step_of_isWaiting (isWaiting_of_awaited hx)]
      exact hx
    · exact (hopens.step h).2

/-- A machine waits after an operation if it waited before or the operation is a step that opens a
    wait, and no key is pressed. -/
theorem awaited_perform_iff (h : m.WellFormed) (hop : op.IsDriving) :
    (m.perform op).machine.keypad.awaited = some x ↔
      ¬ op.EndsWait ∧ (m.keypad.awaited = some x ∨ (op = .step ∧ m.Opens x)) := by
  cases op with
  | step => simpa [Operation.EndsWait, perform] using awaited_step_iff h.toBounded
  | execute | executeAll => cases hop
  | press key =>
    have hpressed := pressed m key
    have hfault := (h.of_pressed hpressed).1
    simp only [Machine.perform, Operation.EndsWait]
    generalize m.press key = o at hpressed hfault
    cases hpressed with
    | ignored hkey => simp [Nat.not_lt.2 hkey]
    | noticed hkey | resumed hkey => simp [hkey]
    | fault => exact absurd rfl hfault
  | release key =>
    have hreleased := released m key
    simp only [Machine.perform, Operation.EndsWait]
    generalize m.release key = o at hreleased
    cases hreleased <;> simp
  | load rom =>
    have hloaded := loaded m rom
    simp only [Machine.perform, Operation.EndsWait]
    generalize m.load rom = o at hloaded
    cases hloaded <;> simp

theorem WellFormed.after (h : m.WellFormed) {ops : List Operation}
    (hops : ∀ op ∈ ops, op.IsDriving) : (m.after ops).WellFormed := by
  induction ops generalizing m with
  | nil => exact h
  | cons op ops ih =>
    obtain ⟨hop, hops⟩ := List.forall_mem_cons.1 hops
    exact ih (h.perform hop.inRange).2 hops

/-- A machine waits for a register after a run if some step opened that wait and no key has been
    pressed since. -/
theorem awaited_after_iff (h : m.WellFormed) (hnone : m.keypad.awaited = none)
    {ops : List Operation} (hops : ∀ op ∈ ops, op.IsDriving) :
    (m.after ops).keypad.awaited = some x ↔
      ∃ before during, ops = before ++ .step :: during ∧ (m.after before).Opens x ∧
        ∀ op ∈ during, ¬ op.EndsWait := by
  -- the last operation decides: a wait after it was there before, or is the one it opens
  induction ops using List.reverseRecOn with
  | nil => simp [hnone]
  | append_singleton ops op ih =>
    obtain ⟨hinit, hlast⟩ := List.forall_mem_append.1 hops
    have hn := h.after hinit
    rw [after_append, after_cons, after_nil,
      awaited_perform_iff hn (hlast op (List.mem_singleton_self _)), ih hinit]
    constructor
    · rintro ⟨hop, ⟨before, during, rfl, hopens, hduring⟩ | ⟨rfl, hopens⟩⟩
      · refine ⟨before, during ++ [op], by simp, hopens, ?_⟩
        intro o ho
        rcases List.mem_append.1 ho with ho | ho
        · exact hduring o ho
        · exact List.mem_singleton.1 ho ▸ hop
      · exact ⟨ops, [], rfl, hopens, by simp⟩
    · rintro ⟨before, during, heq, hopens, hduring⟩
      rcases List.eq_nil_or_concat' during with rfl | ⟨during, last, rfl⟩
      · obtain ⟨rfl, hop⟩ := List.append_inj' heq rfl
        cases hop
        exact ⟨id, Or.inr ⟨rfl, hopens⟩⟩
      · rw [← List.cons_append, ← List.append_assoc] at heq
        obtain ⟨rfl, hop⟩ := List.append_inj' heq rfl
        cases hop
        obtain ⟨hduring, hop⟩ := List.forall_mem_append.1 hduring
        exact ⟨hop op (List.mem_singleton_self _), Or.inl ⟨before, during, rfl, hopens, hduring⟩⟩

/-! ### In between -/

theorem frozen (h : m.WellFormed) (hx : m.keypad.awaited = some x) : m.Frozen x where
  step := step_of_isWaiting (isWaiting_of_awaited hx)
  press_ignored key hkey := by
    have hpressed := pressed m key
    generalize m.press key = o at hpressed
    cases hpressed with
    | ignored => exact ⟨rfl, rfl⟩
    | noticed hlt | resumed hlt | fault hlt => exact absurd hlt (Nat.not_lt.2 hkey)
  release_ignored key hkey := by
    have hreleased := released m key
    generalize m.release key = o at hreleased
    cases hreleased with
    | ignored => exact ⟨rfl, rfl⟩
    | noticed hlt => exact absurd hlt (Nat.not_lt.2 hkey)
  release key hkey := by
    have hreleased := released m key
    generalize m.release key = o at hreleased
    cases hreleased with
    | ignored hle => exact absurd hkey (Nat.not_lt.2 hle)
    | noticed => exact ⟨rfl, rfl⟩
  load_refused rom hrom := by rw [Machine.load, if_pos hrom]
  load rom hrom := by
    rw [Machine.load, if_neg (Nat.not_lt.2 hrom)]
    rfl
  press key hkey := by
    have hlt := h.awaited_lt x hx
    have hpressed := pressed m key
    generalize m.press key = o at hpressed
    cases hpressed with
    | ignored hle => exact absurd hkey (Nat.not_lt.2 hle)
    | noticed _ hnone => cases hx.symm.trans hnone
    | resumed _ hsome hset =>
      cases hx.symm.trans hsome
      rw [Registers.set?_eq_setLow _ _ hlt] at hset
      cases hset
      exact ⟨hlt, rfl, rfl⟩
    | fault _ hsome hset =>
      cases hx.symm.trans hsome
      rw [Registers.set?_eq_setLow _ _ hlt] at hset
      cases hset

theorem isKeyDown_of_le (m : Machine) {key : UInt8} (h : 16 ≤ key.toNat) :
    m.isKeyDown key = false :=
  m.keypad.isDown_of_le h

theorem contains_release (key other : UInt8) :
    (!(List.contains [.release key] (Operation.release other))) = (key != other) := by
  rcases eq_or_ne key other with rfl | hne
  · simp
  · simp [hne, hne.symm]

theorem Kept.perform (hw : m.isWaiting = true) (hop : op.IsDriving) (hend : ¬ op.EndsWait) :
    m.Kept [op] (m.perform op).machine := by
  cases op with
  | step =>
    rw [Machine.perform, step_of_isWaiting hw]
    exact ⟨rfl, rfl, fun key => by simp, fun _ => ⟨rfl, rfl⟩⟩
  | execute | executeAll => cases hop
  | press key =>
    have hpressed := pressed m key
    rw [Machine.perform]
    generalize m.press key = o at hpressed
    cases hpressed with
    | ignored => exact ⟨rfl, rfl, fun other => by simp, fun _ => ⟨rfl, rfl⟩⟩
    | noticed hlt | resumed hlt | fault hlt => exact absurd hlt hend
  | release key =>
    have hreleased := released m key
    rw [Machine.perform]
    generalize m.release key = o at hreleased
    cases hreleased with
    | ignored hle =>
      refine ⟨rfl, rfl, fun other => ?_, fun _ => ⟨rfl, rfl⟩⟩
      rw [contains_release]
      rcases eq_or_ne key other with rfl | hne
      · rw [isKeyDown_of_le m hle, Bool.false_and]
      · rw [bne_iff_ne.2 hne, Bool.and_true]
    | noticed hlt =>
      refine ⟨rfl, rfl, fun other => ?_, fun _ => ⟨rfl, rfl⟩⟩
      have hreleased : m.keypad.release key = .ok _ := dif_pos hlt
      rw [contains_release, Bool.and_comm]
      exact Keypad.isDown_release hreleased other
  | load rom =>
    have hloaded := loaded m rom
    rw [Machine.perform]
    generalize m.load rom = o at hloaded
    cases hloaded with
    | refused => exact ⟨rfl, rfl, fun key => by simp, fun _ => ⟨rfl, rfl⟩⟩
    | done =>
      refine ⟨rfl, rfl, fun key => ?_, fun hnone => absurd (List.mem_singleton_self _) (hnone rom)⟩
      rw [show List.contains _ _ = false from rfl, Bool.not_false, Bool.and_true]
      rfl

theorem Kept.cons {p : Machine} {ops : List Operation} (h : m.Kept [op] n) (h' : n.Kept ops p) :
    m.Kept (op :: ops) p := by
  refine ⟨?_, h'.awaited.trans h.awaited, ?_, ?_⟩
  · rw [h'.rest_eq, h.rest_eq]
  · intro key
    rw [h'.isKeyDown, h.isKeyDown, Bool.and_assoc, ← Bool.not_or, ← List.contains_append]
    rfl
  · intro hnone
    obtain ⟨hmemory, hpc⟩ := h.program fun rom hrom =>
      hnone rom (List.mem_cons.2 (Or.inl (List.mem_singleton.1 hrom)))
    obtain ⟨hmemory', hpc'⟩ := h'.program fun rom hrom => hnone rom (List.mem_cons_of_mem op hrom)
    exact ⟨hmemory'.trans hmemory, hpc'.trans hpc⟩

theorem Kept.after (hw : m.isWaiting = true) {ops : List Operation}
    (hops : ∀ op ∈ ops, op.IsDriving) (hend : ∀ op ∈ ops, ¬ op.EndsWait) :
    m.Kept ops (m.after ops) := by
  induction ops generalizing m with
  | nil => exact ⟨rfl, rfl, fun key => by simp, fun _ => ⟨rfl, rfl⟩⟩
  | cons op ops ih =>
    obtain ⟨hop, hops⟩ := List.forall_mem_cons.1 hops
    obtain ⟨hend, hrest⟩ := List.forall_mem_cons.1 hend
    have hfirst := Kept.perform hw hop hend
    have hw' : (m.perform op).machine.isWaiting = true := by
      rw [isWaiting, Keypad.isWaiting, hfirst.awaited]
      exact hw
    exact hfirst.cons (ih hw' hops hrest)

/-! ### Stuttering -/

theorem Stutter.eq {ops ops' : List Operation} (h : Stutter m ops ops') :
    m.after ops = m.after ops' ∧ m.activeOutcomes ops = m.activeOutcomes ops' := by
  induction h with
  | nil => exact ⟨rfl, rfl⟩
  | both op h ih =>
    obtain ⟨hafter, houtcomes⟩ := ih
    refine ⟨hafter, ?_⟩
    rw [activeOutcomes, activeOutcomes, houtcomes]
  | insert hw h ih =>
    rw [after_cons, activeOutcomes, Machine.perform, step_of_isWaiting hw, if_pos ⟨hw, rfl⟩]
    exact ih
  | delete hw h ih =>
    rw [after_cons, activeOutcomes, Machine.perform, step_of_isWaiting hw, if_pos ⟨hw, rfl⟩]
    exact ih

/-- A wait has one way in and one way out. From any program, after any steps, key events and loads,
    the machine waits for register `x` just if some step executed `awaitKey x` and no key that
    exists has been pressed since; nothing else begins a wait. While it waits it is frozen until a
    key is pressed, which goes to register `x`. Steps of a waiting machine can be inserted or
    deleted anywhere: the machine ends up the same, and so do all other operations. -/
theorem awaited_iff_frozen_stutter {rom : Array UInt8} {settings : Settings} {entropy : ChaCha.Key}
    {events : List Event} (hnew : Machine.new rom settings entropy = .ok (m, events))
    {ops : List Operation} (hops : ∀ op ∈ ops, op.IsDriving) :
    let n := m.after ops
    (∀ x, n.keypad.awaited = some x ↔
      ∃ before during, ops = before ++ .step :: during ∧ (m.after before).Opens x ∧
        ∀ op ∈ during, ¬ op.EndsWait) ∧
    (∀ op : Operation, op.IsDriving → n.isWaiting = false →
      (n.perform op).machine.isWaiting = true → op = .step ∧ (n.perform op).verdict = .done ∧
        ∃ x, n.Opens x ∧ (n.perform op).machine.keypad.awaited = some x) ∧
    (∀ x, n.keypad.awaited = some x →
      n.Frozen x ∧ ∀ during : List Operation, (∀ op ∈ during, op.IsDriving) →
        (∀ op ∈ during, ¬ op.EndsWait) → n.Kept during (n.after during)) ∧
    (∀ ops', Stutter m ops ops' →
      m.after ops = m.after ops' ∧ m.activeOutcomes ops = m.activeOutcomes ops') := by
  intro n
  have hm := wellFormed_new hnew
  obtain ⟨-, -, -, hnone, -⟩ := start_of_new hnew
  have hn : n.WellFormed := hm.after hops
  refine ⟨fun x => awaited_after_iff hm hnone hops, ?_, ?_, fun ops' hstutter => hstutter.eq⟩
  · intro op hop hready hwaits
    obtain ⟨x, hx⟩ := Option.isSome_iff_exists.1 hwaits
    rcases ((awaited_perform_iff hn hop).1 hx).2 with hbefore | ⟨rfl, hopens⟩
    · cases (isWaiting_eq_false_iff.1 hready).symm.trans hbefore
    · exact ⟨rfl, (hopens.step hn.toBounded).1, x, hopens, hx⟩
  · exact fun x hx => ⟨frozen hn hx, fun during hduring hend =>
      .after (isWaiting_of_awaited hx) hduring hend⟩

/-- A program that begins with a wait for register 5, a key that does not exist, and a step while it
    waits; then key 7. -/
theorem awaited_register_five :
    ∃ m events, Machine.new #[0xF5, 0x0A] {} (Vector.replicate 8 0) = .ok (m, events) ∧
      let n := m.after [.step, .press 16, .step]
      n.keypad.awaited = some 5 ∧ n = m.after [.step, .press 16] ∧
        (n.press 7).machine.registers = n.registers.setLow 5 7 := by
  obtain ⟨m, events, hnew⟩ : ∃ m events,
      Machine.new #[0xF5, 0x0A] {} (Vector.replicate 8 0) = .ok (m, events) :=
    ⟨_, _, new_eq_ok_iff.2 ⟨by decide, by decide, rfl, rfl⟩⟩
  refine ⟨m, events, hnew, ?_⟩
  intro n
  obtain ⟨-, -, -, hnone, hfetch⟩ := start_of_new hnew
  have hopens : m.Opens 5 := by
    refine ⟨isWaiting_eq_false_iff.2 hnone, ?_⟩
    rw [nextInstruction?, hfetch]
    decide
  have hdriving : ∀ op ∈ [Operation.step, .press 16, .step], op.IsDriving := by
    simp [Operation.IsDriving]
  obtain ⟨hawaited, -, hfrozen, hstutter⟩ := awaited_iff_frozen_stutter hnew hdriving
  have hfive : n.keypad.awaited = some 5 :=
    (hawaited 5).2 ⟨[], [.press 16, .step], rfl, hopens, by simp [Operation.EndsWait]⟩
  have hpressed : (m.after [.step, .press 16]).keypad.awaited = some 5 :=
    (awaited_after_iff (wellFormed_new hnew) hnone (by simp [Operation.IsDriving])).2
      ⟨[], [.press 16], rfl, hopens, by simp [Operation.EndsWait]⟩
  -- the last step is made during the wait, so it can be taken out
  have hstep : Stutter m [.step, .press 16, .step] [.step, .press 16] :=
    .both .step (.both (.press 16) (.delete (isWaiting_of_awaited hpressed) (.nil _)))
  obtain ⟨-, -, hpress⟩ := (hfrozen 5 hfive).1.press 7 (by decide)
  refine ⟨hfive, (hstutter _ hstep).1, ?_⟩
  rw [hpress]

end Machine

end Chip8
