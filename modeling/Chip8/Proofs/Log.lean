import Chip8.Proofs.Runs
import Chip8.Speaker

/-! # The log

    What a machine reports goes to a speaker, which takes the beeps and passes the notes on to the
    log, each as one line with a level and a text. The log tells what every step did. A step that
    waits leaves no line, and an unknown word leaves its error. Every other step leaves the trace of
    its instruction first, and then either the error of the stack, or the wait that it begins and
    the sound timer that runs out.

    So the traces in the log of a run are its steps that were counted, and those that the stack
    stopped. -/

namespace Chip8

/-- The line of a note. -/
def Note.line (n : Note) : Level × String := (n.level, n.text)

/-- The lines that events leave in the log when a speaker hears them. -/
def Speaker.lines (s : Speaker) (events : List Event) : List (Level × String) :=
  (s.hear events).2.map Note.line

/-- Whether a line is the trace of an instruction. Only one other line is of this level. -/
def isInstructionTrace (line : Level × String) : Bool :=
  line.1 = .trace && line.2 != "Sound timer ran out"

/-- Whether an operation was stopped by the stack. -/
def Verdict.isStackFailure : Verdict → Bool
  | .failed (.stackOverflow _) | .failed (.stackUnderflow _) => true
  | _ => false

/-- The line of an instruction that waits for a key. -/
def Instruction.waitLines : Instruction → List (Level × String)
  | .awaitKey x => [(.debug, "Waiting for a key for V" ++ Numeral.hexUpper x.toNat)]
  | _ => []

/-- The lines of a sound timer that runs out. The second is left by a channel without a far end. -/
def Speaker.beepLines (s : Speaker) : List (Level × String) :=
  (.trace, "Sound timer ran out") ::
    if s = .closed then [(.debug, "Sound receiver is gone, dropping trigger")] else []

namespace Machine

/-- The log of operations, each with the speaker that hears it. -/
def log (m : Machine) : List (Speaker × Operation) → List (Level × String)
  | [] => []
  | (s, op) :: calls => s.lines (m.perform op).events ++ (m.perform op).machine.log calls

/-- The number of steps among operations that the stack stopped. -/
def stackFailures (m : Machine) : List Operation → Nat
  | [] => 0
  | op :: ops =>
    (if op = .step ∧ (m.perform op).verdict.isStackFailure = true then 1 else 0) +
      (m.perform op).machine.stackFailures ops

variable {m : Machine} {i : Instruction} {s : Speaker}

/-! ### Lines of events -/

theorem lines_note (s : Speaker) (n : Note) (events : List Event) :
    s.lines (.note n :: events) = n.line :: s.lines events := rfl

theorem lines_reports_append (s : Speaker) (i : Instruction) (events : List Event) :
    s.lines (reports i ++ events) = i.waitLines ++ s.lines events := by
  cases i <;> rfl

theorem beep_not_mem_reports (i : Instruction) : Event.beep ∉ reports i :=
  List.count_eq_zero.1 (count_beep_reports i)

/-- Counting a step reports nothing, or that the sound timer has run out. -/
theorem lines_count (m : Machine) (s : Speaker) :
    s.lines m.count.2 = if .beep ∈ m.count.2 then s.beepLines else [] := by
  have hticked : m.count.2 = [] ∨ m.count.2 = [.note .soundRanOut, .beep] := by
    dsimp only [count, tick]
    split
    · split
      · exact Or.inr rfl
      · exact Or.inl rfl
    · exact Or.inl rfl
  rcases hticked with hnone | hbeep
  · rw [hnone]
    rfl
  · rw [hbeep]
    cases s <;> rfl

theorem isInstructionTrace_traceText (pc : UInt16) (i : Instruction) :
    isInstructionTrace (.trace, Note.traceText pc i) = true := by
  have hfirst : (Note.traceText pc i).toList.head? = some '0' := by
    rw [Note.traceText, Numeral.hex, String.append_assoc, String.append_assoc,
      String.toList_append]
    rfl
  have hne : Note.traceText pc i ≠ "Sound timer ran out" := by
    intro heq
    rw [heq] at hfirst
    exact absurd hfirst (by decide)
  rw [isInstructionTrace, Bool.and_eq_true, bne_iff_ne]
  exact ⟨rfl, hne⟩

/-- The events of an instruction that was carried out and counted. -/
theorem lines_ran (m : Machine) (s : Speaker) (pc : UInt16) (i : Instruction) :
    s.lines (.note (.executing pc i) :: reports i ++ m.count.2) =
      (.trace, Note.traceText pc i) ::
        (i.waitLines ++ if .beep ∈ m.count.2 then s.beepLines else []) := by
  rw [List.cons_append, lines_note, lines_reports_append, lines_count]
  rfl

/-! ### One step -/

/-- All that a step can leave in the log. -/
structure Logged (m : Machine) (s : Speaker) (o : Outcome) : Prop where
  waits : m.isWaiting = true → s.lines o.events = []
  unknown : m.isWaiting = false → m.nextInstruction? = none →
    o.verdict = .failed (.unknownOpcode m.fetch.word m.pc) ∧
      s.lines o.events = [(.error, (Error.unknownOpcode m.fetch.word m.pc).message)]
  refused : m.isWaiting = false → ∀ i, m.nextInstruction? = some i → ∀ e, o.verdict = .failed e →
    (e = .stackOverflow m.pc ∨ e = .stackUnderflow m.pc) ∧
      s.lines o.events = [(.trace, Note.traceText m.pc i), (.error, e.message)]
  ran : m.isWaiting = false → ∀ i, m.nextInstruction? = some i → o.verdict = .done →
    s.lines o.events = (.trace, Note.traceText m.pc i) ::
      (i.waitLines ++ if .beep ∈ o.events then s.beepLines else [])

theorem stackError_of_refusal? {origin : UInt16} {e : Error} (h : m.refusal? origin i = some e) :
    e = .stackOverflow origin ∨ e = .stackUnderflow origin := by
  unfold refusal? at h
  split at h
  · split at h <;> cases h
    exact Or.inr rfl
  · split at h <;> cases h
    exact Or.inl rfl
  · cases h

theorem Stepped.logged {o : Outcome} (ho : Stepped m o) (s : Speaker) : Logged m s o := by
  cases ho with
  | waits hw =>
    exact { waits _ := rfl, unknown := by simp [hw], refused := by simp [hw], ran := by simp [hw] }
  | unknown hw hnext =>
    refine { waits := by simp [hw], unknown := ?_, refused := by simp [hnext],
             ran := by simp [hnext] }
    intro _ _
    exact ⟨rfl, rfl⟩
  | @refused hw j e hnext he =>
    refine { waits := by simp [hw], unknown := by simp [hnext], refused := ?_, ran := by simp }
    intro _ i hi e' he'
    cases hnext.symm.trans hi
    cases he'
    exact ⟨stackError_of_refusal? he, rfl⟩
  | @ran hw j after hnext =>
    refine { waits := by simp [hw], unknown := by simp [hnext], refused := by simp, ran := ?_ }
    intro _ i hi _
    cases hnext.symm.trans hi
    have hbeep : Event.beep ∈ Event.note (.executing m.pc j) :: reports j ++ after.count.2 ↔
        .beep ∈ after.count.2 := by
      simp [beep_not_mem_reports]
    have hlines := after.lines_ran s m.pc j
    rw [← if_congr hbeep rfl rfl] at hlines
    exact hlines

/-! ### Traces -/

theorem countP_waitLines (i : Instruction) : i.waitLines.countP isInstructionTrace = 0 := by
  cases i <;> rfl

theorem countP_beepLines (s : Speaker) : s.beepLines.countP isInstructionTrace = 0 := by
  cases s <;> rfl

theorem countP_lines_ran (m : Machine) (s : Speaker) (pc : UInt16) (i : Instruction) :
    (s.lines (.note (.executing pc i) :: reports i ++ m.count.2)).countP isInstructionTrace =
      1 := by
  have hbeep : (if .beep ∈ m.count.2 then s.beepLines else []).countP isInstructionTrace = 0 := by
    split
    · exact countP_beepLines s
    · rfl
  have htrace := isInstructionTrace_traceText pc i
  rw [lines_ran, List.countP_cons_of_pos htrace, List.countP_append, countP_waitLines, hbeep]

/-- A step leaves one trace if it is counted or if the stack stops it, and none otherwise. -/
theorem countP_lines_step (h : m.Bounded) (s : Speaker) :
    (s.lines m.step.events).countP isInstructionTrace =
      (if m.IsCounted .step then 1 else 0) +
        if m.step.verdict.isStackFailure = true then 1 else 0 := by
  have hstepped := stepped h
  simp only [IsCounted, perform, true_and]
  generalize m.step = o at hstepped
  cases hstepped with
  | waits hw => simp [hw, Verdict.isStackFailure, Speaker.lines, Speaker.hear]
  | unknown =>
    rw [if_neg (by simp), if_neg (by simp [Verdict.isStackFailure])]
    rfl
  | @refused hw i e hnext he =>
    have hstack : (Verdict.failed e).isStackFailure = true := by
      rcases stackError_of_refusal? he with rfl | rfl <;> rfl
    have htrace : isInstructionTrace (Note.executing m.pc i).line = true :=
      isInstructionTrace_traceText m.pc i
    rw [if_neg (by simp), if_pos hstack, lines_note, List.countP_cons_of_pos htrace]
    rfl
  | @ran hw i after =>
    rw [if_pos ⟨hw, rfl⟩, countP_lines_ran]
    rfl

/-- Nothing but a step leaves a trace. -/
theorem countP_lines_outside (m : Machine) (s : Speaker) {op : Operation}
    (hop : op.isOutside = true) :
    (s.lines (m.perform op).events).countP isInstructionTrace = 0 := by
  cases op with
  | press key =>
    have hall : ∀ o, Pressed m key o → (s.lines o.events).countP isInstructionTrace = 0 := by
      rintro _ ⟨⟩ <;> rfl
    exact hall _ (pressed m key)
  | release key =>
    have hall : ∀ o, Released m key o → (s.lines o.events).countP isInstructionTrace = 0 := by
      rintro _ ⟨⟩ <;> rfl
    exact hall _ (released m key)
  | load rom =>
    have hall : ∀ o, Loaded m rom o → (s.lines o.events).countP isInstructionTrace = 0 := by
      rintro _ ⟨⟩ <;> rfl
    exact hall _ (loaded m rom)
  | step | execute | executeAll => cases hop

theorem countP_lines_perform (h : m.Bounded) (s : Speaker) {op : Operation} (hop : op.IsDriving) :
    (s.lines (m.perform op).events).countP isInstructionTrace =
      (if m.IsCounted op then 1 else 0) +
        if op = .step ∧ (m.perform op).verdict.isStackFailure = true then 1 else 0 := by
  rcases hop.eq_step_or_isOutside with rfl | hout
  · simpa [perform] using countP_lines_step h s
  · have hne := Operation.ne_step_of_isOutside hout
    rw [m.countP_lines_outside s hout, if_neg fun hcounted => hne hcounted.1,
      if_neg fun hstopped => hne hstopped.1]

/-! ### Runs -/

/-- The traces in a log are the steps that were counted and those that the stack stopped. -/
theorem countP_log (h : m.Bounded) {calls : List (Speaker × Operation)}
    (hops : ∀ c ∈ calls, c.2.IsDriving) :
    (m.log calls).countP isInstructionTrace =
      m.countedSteps (calls.map Prod.snd) + m.stackFailures (calls.map Prod.snd) := by
  induction calls generalizing m with
  | nil => rfl
  | cons c calls ih =>
    obtain ⟨s, op⟩ := c
    obtain ⟨hop, hops⟩ := List.forall_mem_cons.1 hops
    have hfirst := countP_lines_perform h s hop
    have hrest := ih (h.perform op) hops
    rw [List.map_cons, log, countedSteps, stackFailures, List.countP_append, hfirst, hrest]
    exact Nat.add_add_add_comm ..

theorem steps_after (h : m.Bounded) (ops : List Operation) :
    (m.after ops).steps = m.steps + UInt64.ofNat (m.countedSteps ops) := by
  induction ops generalizing m with
  | nil => exact (UInt64.add_zero _).symm
  | cons op ops ih =>
    rw [after_cons, ih (h.perform op), steps_perform h op, countedSteps, UInt64.ofNat_add,
      UInt64.add_assoc]
    split <;> rfl

/-- The log is a record of the run. From any program, after any steps, key events and loads, whoever
    hears them, a step leaves nothing while the machine waits, the error alone if the word at the
    counter is no instruction, and otherwise the trace of the counter and the instruction, followed
    by the error of the stack if there is one, and else by the wait, if the instruction begins one,
    and the beep, if the sound timer runs out. The traces in the log of the whole run are as many as
    the count of steps at its end and the steps that the stack stopped. The count is kept in 64
    bits, so once it has wrapped this holds modulo `2 ^ 64`. -/
theorem log_tells_steps {rom : Array UInt8} {settings : Settings} {entropy : ChaCha.Key}
    {events : List Event} (hnew : Machine.new rom settings entropy = .ok (m, events))
    {calls : List (Speaker × Operation)} (hops : ∀ c ∈ calls, c.2.IsDriving) :
    let ops := calls.map Prod.snd
    let n := m.after ops
    let traces := (m.log calls).countP isInstructionTrace
    (∀ s : Speaker, n.step.verdict ≠ .fault ∧
      (n.isWaiting = true → s.lines n.step.events = []) ∧
      (n.isWaiting = false → Instruction.decode? n.fetch = none →
        n.step.verdict = .failed (.unknownOpcode n.fetch.word n.pc) ∧
        s.lines n.step.events =
          [(.error, (Error.unknownOpcode n.fetch.word n.pc).message)]) ∧
      (n.isWaiting = false → ∀ i, Instruction.decode? n.fetch = some i →
        (∀ e, n.step.verdict = .failed e →
          (e = .stackOverflow n.pc ∨ e = .stackUnderflow n.pc) ∧
          s.lines n.step.events = [(.trace, Note.traceText n.pc i), (.error, e.message)]) ∧
        (n.step.verdict = .done →
          s.lines n.step.events =
            (.trace, Note.traceText n.pc i) ::
              (i.waitLines ++ if .beep ∈ n.step.events then s.beepLines else [])))) ∧
    traces = m.countedSteps ops + m.stackFailures ops ∧
    UInt64.ofNat traces = n.steps + UInt64.ofNat (m.stackFailures ops) ∧
    (m.countedSteps ops < 2 ^ 64 → traces = n.steps.toNat + m.stackFailures ops) := by
  intro ops n traces
  have hm := (wellFormed_new hnew).toBounded
  obtain ⟨-, hzero, -⟩ := start_of_new hnew
  have htraces : traces = m.countedSteps ops + m.stackFailures ops := countP_log hm hops
  have hsteps : n.steps = UInt64.ofNat (m.countedSteps ops) := by
    rw [steps_after hm ops, hzero, UInt64.zero_add]
  refine ⟨fun s => ?_, htraces, ?_, fun hlt => ?_⟩
  · have hn := hm.after ops
    have hlogged := (stepped hn).logged s
    exact ⟨hn.step_ne_fault, hlogged.waits, hlogged.unknown,
      fun hw i hi => ⟨hlogged.refused hw i hi, hlogged.ran hw i hi⟩⟩
  · rw [htraces, hsteps, UInt64.ofNat_add]
  · rw [htraces, hsteps, UInt64.toNat_ofNat_of_lt' hlt]

/-- A program that only returns: its first step leaves a trace and an error, and is not counted. -/
theorem log_tells_return :
    ∃ m events, Machine.new #[0x00, 0xEE] {} (Vector.replicate 8 0) = .ok (m, events) ∧
      (∀ s : Speaker, s.lines m.step.events =
        [(.trace, "0x200: Return"),
          (.error, "stack underflow: return at 0x200 with an empty call stack")]) ∧
      (m.log [(.closed, .step), (.mute, .press 3)]).countP isInstructionTrace = 1 := by
  obtain ⟨m, events, hnew⟩ :=
    exists_new #[0x00, 0xEE] {} (Vector.replicate 8 0) (by decide) (by decide)
  obtain ⟨-, -, -, -, hfetch⟩ := start_of_new hnew
  obtain ⟨hpc, hpointer, hready⟩ :
      m.pc = 0x200 ∧ m.stack.pointer = 0 ∧ m.isWaiting = false := by
    obtain ⟨-, -, rfl, -⟩ := new_eq_ok_iff.1 hnew
    exact ⟨rfl, rfl, rfl⟩
  have hnext : Instruction.decode? m.fetch = some .ret := by
    rw [hfetch]
    decide
  have hm := (wellFormed_new hnew).toBounded
  have hfails : m.step.verdict = .failed (.stackUnderflow m.pc) := by
    refine (verdict_of_stepped (stepped hm)).2.2 ((failure?_eq_some_iff hm).2 ?_)
    exact ⟨hready, Or.inr (Or.inr ⟨hnext, hpointer, rfl⟩)⟩
  have hnone : ∀ c ∈ ([] : List (Speaker × Operation)), c.2.IsDriving := nofun
  have hkeys : ∀ c ∈ [(Speaker.closed, Operation.step), (.mute, .press 3)], c.2.IsDriving := by
    simp [Operation.IsDriving]
  refine ⟨m, events, hnew, fun s => ?_, ?_⟩
  · obtain ⟨-, -, -, hran⟩ := (log_tells_steps hnew hnone).1 s
    have hlines : s.lines m.step.events =
        [(.trace, Note.traceText m.pc .ret), (.error, (Error.stackUnderflow m.pc).message)] :=
      ((hran hready _ hnext).1 _ hfails).2
    rw [hlines, hpc]
    decide
  · obtain ⟨-, htraces, -⟩ := log_tells_steps hnew hkeys
    rw [htraces]
    simp [countedSteps, stackFailures, IsCounted, perform, hfails, Verdict.isStackFailure]

end Machine

end Chip8
