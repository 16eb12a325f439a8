import Chip8.Proofs.UnusedSlots

/-! # Calls and returns

    The slots and the pointer of the stack are a list of return addresses: a call pushes the counter
    it finds, a return pops the address it goes to, and nothing else moves the list. It holds up to
    fifteen addresses; a call with fifteen and a return with none are what fails. Whatever is done
    between a call and a return, if its own calls and returns are balanced, then the return goes
    back to where the call came from. -/

namespace Chip8

/-- What happens to a list of return addresses. -/
inductive Move where
  | push (a : UInt16)
  | pop
  deriving DecidableEq

/-- A list of return addresses after a move. -/
def Move.apply (addresses : List UInt16) : Move → List UInt16
  | .push a => a :: addresses
  | .pop => addresses.tail

/-- Moves in which every push is popped again, and nothing else. -/
inductive Balanced : List Move → Prop where
  | nil : Balanced []
  | enclose {a : UInt16} {inner rest : List Move} (hinner : Balanced inner)
      (hrest : Balanced rest) : Balanced (.push a :: (inner ++ .pop :: rest))

/-- The moves of an instruction that finds the counter at `pc`. -/
def Instruction.moves (pc : UInt16) : Instruction → List Move
  | .ret => [.pop]
  | .call _ => [.push pc]
  | _ => []

theorem Balanced.foldl_apply {moves : List Move} (h : Balanced moves) (addresses : List UInt16) :
    moves.foldl Move.apply addresses = addresses := by
  induction h generalizing addresses with
  | nil => rfl
  | @enclose a inner rest hinner hrest ihinner ihrest =>
    rw [List.foldl_cons, List.foldl_append, ihinner, List.foldl_cons, ihrest]
    rfl

theorem CallStack.length_slotsDown (slots : Vector UInt16 16) (n : Nat) :
    (slotsDown slots n).length = n := by
  induction n with
  | zero => rfl
  | succ n ih => rw [slotsDown, List.length_cons, ih]

@[simp] theorem CallStack.length_entries (s : CallStack) : s.entries.length = s.pointer.toNat :=
  length_slotsDown _ _

namespace Machine

/-- The instruction that an operation sets out to execute, if it is one, and the counter that the
    instruction finds: past it for a step, and where it is for an instruction from outside. -/
def attempted? (m : Machine) : Operation → Option (Instruction × UInt16)
  | .step => if m.isWaiting then none else m.nextInstruction?.map (·, m.pc + 2)
  | .execute i => some (i, m.pc)
  | .executeAll _ | .press _ | .release _ | .load _ => none

/-- The moves of instructions from outside, up to the first that is not completed. -/
def executeAllMoves (m : Machine) : List Instruction → List Move
  | [] => []
  | i :: is =>
    if (m.execute i).verdict = .done then
      i.moves m.pc ++ (m.execute i).machine.executeAllMoves is
    else []

/-- The moves of an operation: those of its instructions that are completed. -/
def performMoves (m : Machine) : Operation → List Move
  | .executeAll is => m.executeAllMoves is
  | op =>
    if (m.perform op).verdict = .done then
      (m.attempted? op).elim [] fun p => p.1.moves p.2
    else []

/-- The moves of operations. -/
def moves (m : Machine) : List Operation → List Move
  | [] => []
  | op :: ops => m.performMoves op ++ (m.perform op).machine.moves ops

variable {m : Machine} {i : Instruction} {pc : UInt16}

/-! ### One instruction -/

/-- What becomes of an instruction that finds the counter at `pc`, as far as calls are concerned. -/
inductive Attempted (m : Machine) (i : Instruction) (pc : UInt16) : Outcome → Prop where
  | refused {e : Error} {events : List Event} (he : m.refusal? m.pc i = some e) :
      Attempted m i pc ⟨.failed e, m, events⟩
  | fault {events : List Event} (heffect : { m with pc }.effect m.pc i = .error .fault) :
      Attempted m i pc ⟨.fault, m, events⟩
  | done {after final : Machine} {events : List Event}
      (heffect : { m with pc }.effect m.pc i = .ok after) (hstack : final.stack = after.stack)
      (hpc : final.pc = after.pc) : Attempted m i pc ⟨.done, final, events⟩

theorem attempted_of_executed {o : Outcome} (ho : Executed m i o) : Attempted m i m.pc o := by
  cases ho with
  | refused he => exact .refused he
  | fault heffect => exact .fault heffect
  | done heffect => exact .done heffect rfl rfl

theorem attempted_of_stepped {o : Outcome} (ho : Stepped m o)
    (hi : m.attempted? .step = some (i, pc)) : Attempted m i pc o := by
  rw [attempted?] at hi
  cases ho with
  | waits hw => simp [hw] at hi
  | unknown hw hnext => simp [hw, hnext] at hi
  | refused hw hnext he =>
    simp only [hw, hnext, Bool.false_eq_true, if_false, Option.map_some, Option.some.injEq,
      Prod.mk.injEq] at hi
    obtain ⟨rfl, rfl⟩ := hi
    exact .refused he
  | ran hw hnext hfree heffect =>
    simp only [hw, hnext, Bool.false_eq_true, if_false, Option.map_some, Option.some.injEq,
      Prod.mk.injEq] at hi
    obtain ⟨rfl, rfl⟩ := hi
    exact .done heffect (stack_count _) (pc_count _)

theorem attempted (h : m.Bounded) {op : Operation} (hi : m.attempted? op = some (i, pc)) :
    Attempted m i pc (m.perform op) := by
  cases op with
  | step => exact attempted_of_stepped (stepped h) hi
  | execute j =>
    cases hi
    exact attempted_of_executed (executed m i)
  | executeAll | press | release | load => cases hi

/-- A call enters its target and pushes the counter it finds, unless fifteen calls are entered. -/
theorem Attempted.call {target : UInt16} {o : Outcome} (h : Attempted m (.call target) pc o) :
    (15 ≤ m.stack.pointer.toNat →
      o.verdict = .failed (.stackOverflow m.pc) ∧ o.machine = m) ∧
    (m.stack.pointer.toNat < 15 →
      o.verdict = .done ∧ o.machine.pc = target ∧
        o.machine.stack.entries = pc :: m.stack.entries) := by
  rcases Nat.lt_or_ge m.stack.pointer.toNat 15 with hfree | hfull
  · obtain ⟨stack, hpush, -, heq⟩ := exists_effect_call { m with pc } m.pc target hfree
    refine ⟨fun hfull => absurd hfree (Nat.not_lt.2 hfull), fun _ => ?_⟩
    cases h with
    | refused he => cases ((m.refusal?_call_eq_none_iff m.pc target).2 hfree).symm.trans he
    | fault heffect => cases heq.symm.trans heffect
    | done heffect hstack hpc =>
      cases heq.symm.trans heffect
      exact ⟨rfl, hpc, hstack ▸ CallStack.entries_push? hpush⟩
  · have hrefused : m.refusal? m.pc (.call target) = some (.stackOverflow m.pc) := if_pos hfull
    have heq := effect_of_refusal? (i := .call target) { m with pc } m.pc hrefused
    refine ⟨fun _ => ?_, fun hfree => absurd hfull (Nat.not_le.2 hfree)⟩
    cases h with
    | refused he =>
      cases hrefused.symm.trans he
      exact ⟨rfl, rfl⟩
    | fault heffect | done heffect => cases heq.symm.trans heffect

/-- A return goes to the newest address and pops it, unless there is none. -/
theorem Attempted.ret (hp : m.stack.pointer.toNat ≤ 15) {o : Outcome}
    (h : Attempted m .ret pc o) :
    (m.stack.entries = [] → o.verdict = .failed (.stackUnderflow m.pc) ∧ o.machine = m) ∧
    (∀ a rest, m.stack.entries = a :: rest →
      o.verdict = .done ∧ o.machine.pc = a ∧ o.machine.stack.entries = rest) := by
  by_cases hpointer : m.stack.pointer = 0
  · have hempty : m.stack.entries = [] := by
      rw [← List.length_eq_zero_iff, CallStack.length_entries, hpointer]
      rfl
    have hrefused : m.refusal? m.pc .ret = some (.stackUnderflow m.pc) := if_pos hpointer
    have heq := effect_of_refusal? (i := .ret) { m with pc } m.pc hrefused
    refine ⟨fun _ => ?_, fun a rest hcons =>
      absurd (hcons.symm.trans hempty) (List.cons_ne_nil _ _)⟩
    cases h with
    | refused he =>
      cases hrefused.symm.trans he
      exact ⟨rfl, rfl⟩
    | fault heffect | done heffect => cases heq.symm.trans heffect
  · obtain ⟨a, htop, heq⟩ := exists_effect_ret { m with pc } m.pc hp hpointer
    have hentries : m.stack.entries = a :: m.stack.drop.entries :=
      CallStack.entries_eq_cons_drop hpointer htop
    refine ⟨fun hempty => absurd (hentries.symm.trans hempty) (List.cons_ne_nil _ _), ?_⟩
    intro b rest hcons
    cases hentries.symm.trans hcons
    cases h with
    | refused he => cases ((m.refusal?_ret_eq_none_iff m.pc).2 hpointer).symm.trans he
    | fault heffect => cases heq.symm.trans heffect
    | done heffect hstack hpc =>
      cases heq.symm.trans heffect
      exact ⟨rfl, hpc, congrArg CallStack.entries hstack⟩

theorem moves_of_isPlain (hi : i.isPlain = true) (pc : UInt16) : i.moves pc = [] := by
  cases i with
  | call | ret => cases hi
  | _ => rfl

/-- An instruction moves the list if it is completed. -/
theorem Attempted.entries {o : Outcome} (h : Attempted m i pc o) :
    o.machine.stack.entries =
      (if o.verdict = .done then i.moves pc else []).foldl Move.apply m.stack.entries := by
  cases h with
  | refused | fault => rfl
  | done heffect hstack =>
    rw [hstack, if_pos rfl]
    cases changed_of_effect heffect with
    | plain hi =>
      rw [moves_of_isPlain hi]
      rfl
    | ret hpointer htop =>
      exact (congrArg List.tail (CallStack.entries_eq_cons_drop hpointer htop)).symm
    | call hpush => exact CallStack.entries_push? hpush
    | _ => rfl

/-! ### Operations -/

theorem entries_executeAll (m : Machine) (is : List Instruction) :
    (m.executeAll is).machine.stack.entries =
      (m.executeAllMoves is).foldl Move.apply m.stack.entries := by
  induction is generalizing m with
  | nil => rfl
  | cons i is ih =>
    have hfirst := (attempted_of_executed (executed m i)).entries
    rw [executeAll_cons, executeAllMoves]
    split
    · rename_i hdone
      rw [if_pos hdone] at hfirst
      rw [List.foldl_append, ← hfirst]
      exact ih _
    · rename_i hdone
      rwa [if_neg hdone] at hfirst

theorem stack_of_stepped {o : Outcome} (ho : Stepped m o) (hi : m.attempted? .step = none) :
    o.machine.stack = m.stack := by
  rw [attempted?] at hi
  cases ho with
  | waits | unknown | refused => rfl
  | ran hw hnext => simp [hw, hnext] at hi

theorem performMoves_outside (m : Machine) {op : Operation} (hop : op.isOutside = true) :
    m.performMoves op = [] := by
  cases op with
  | press | release | load => exact ite_self _
  | step | execute | executeAll => cases hop

theorem entries_perform (h : m.Bounded) (op : Operation) :
    (m.perform op).machine.stack.entries =
      (m.performMoves op).foldl Move.apply m.stack.entries := by
  cases hop : op.isOutside with
  | true =>
    obtain ⟨memory, registers, pc, keypad, hafter⟩ := m.exists_perform_outside hop
    rw [hafter, m.performMoves_outside hop]
    rfl
  | false =>
    cases op with
    | executeAll is => exact entries_executeAll m is
    | step =>
      cases hi : m.attempted? .step with
      | none =>
        simp only [performMoves, hi, Option.elim_none, ite_self]
        exact congrArg CallStack.entries (stack_of_stepped (stepped h) hi)
      | some p =>
        simp only [performMoves, hi, Option.elim_some]
        exact (attempted h hi).entries
    | execute i => exact (attempted_of_executed (executed m i)).entries
    | press | release | load => cases hop

/-- The list after operations is the list moved by their calls and returns. -/
theorem entries_after (h : m.Bounded) (ops : List Operation) :
    (m.after ops).stack.entries = (m.moves ops).foldl Move.apply m.stack.entries := by
  induction ops generalizing m with
  | nil => rfl
  | cons op ops ih =>
    rw [after_cons, moves, List.foldl_append, ← entries_perform h op]
    exact ih (h.perform op)

/-! ### Calls and the returns that match them -/

variable {op : Operation} {target : UInt16}

theorem perform_call (h : m.Bounded) (hi : m.attempted? op = some (.call target, pc)) :
    (m.stack.entries.length = 15 → (m.perform op).verdict = .failed (.stackOverflow m.pc)) ∧
    (m.stack.entries.length < 15 →
      (m.perform op).verdict = .done ∧ (m.perform op).machine.pc = target ∧
        (m.perform op).machine.stack.entries = pc :: m.stack.entries) := by
  obtain ⟨hfull, hfree⟩ := (attempted h hi).call
  rw [CallStack.length_entries]
  exact ⟨fun hlength => (hfull (Nat.le_of_eq hlength.symm)).1, hfree⟩

theorem perform_ret (h : m.Bounded) (hi : m.attempted? op = some (.ret, pc)) :
    (m.stack.entries = [] → (m.perform op).verdict = .failed (.stackUnderflow m.pc)) ∧
    (∀ a rest, m.stack.entries = a :: rest →
      (m.perform op).verdict = .done ∧ (m.perform op).machine.pc = a ∧
        (m.perform op).machine.stack.entries = rest) := by
  obtain ⟨hempty, hcons⟩ := (attempted h hi).ret h.pointer_le
  exact ⟨fun hentries => (hempty hentries).1, hcons⟩

/-- A return goes back to where the call before it came from, if all calls and returns in between
    are balanced. -/
theorem perform_ret_of_balanced (h : m.Bounded)
    (hcall : m.attempted? op = some (.call target, pc)) (hdone : (m.perform op).verdict = .done)
    {between : List Operation} (hbetween : Balanced ((m.perform op).machine.moves between))
    {last : Operation} {pc' : UInt16}
    (hret : ((m.perform op).machine.after between).attempted? last = some (.ret, pc')) :
    let r := ((m.perform op).machine.after between).perform last
    r.verdict = .done ∧ r.machine.pc = pc ∧ r.machine.stack.entries = m.stack.entries := by
  have hcalled : (m.perform op).machine.Bounded := h.perform op
  have hpushed : (m.perform op).machine.stack.entries = pc :: m.stack.entries := by
    have hentries := (attempted h hcall).entries
    rwa [if_pos hdone] at hentries
  have hkept : ((m.perform op).machine.after between).stack.entries = pc :: m.stack.entries := by
    rw [entries_after hcalled, hbetween.foldl_apply, hpushed]
  exact (perform_ret (hcalled.after between) hret).2 pc m.stack.entries hkept

/-- The stack is a list of at most fifteen return addresses. From any program, and after any
    operations, it is what their calls and returns make of the empty list; a call fails at fifteen
    addresses and a return at none, and otherwise they push and pop; a return matches its call
    across balanced ones; and what else is in the slots is never observed, on any machine. -/
theorem calls_refine_list {rom : Array UInt8} {settings : Settings} {entropy : ChaCha.Key}
    {events : List Event} (hnew : Machine.new rom settings entropy = .ok (m, events))
    (ops : List Operation) :
    let n := m.after ops
    (n.stack.entries = (m.moves ops).foldl Move.apply [] ∧ n.stack.entries.length ≤ 15) ∧
    (∀ op target pc, n.attempted? op = some (.call target, pc) →
      (n.stack.entries.length = 15 → (n.perform op).verdict = .failed (.stackOverflow n.pc)) ∧
      (n.stack.entries.length < 15 →
        (n.perform op).verdict = .done ∧ (n.perform op).machine.pc = target ∧
          (n.perform op).machine.stack.entries = pc :: n.stack.entries)) ∧
    (∀ op pc, n.attempted? op = some (.ret, pc) →
      (n.stack.entries = [] → (n.perform op).verdict = .failed (.stackUnderflow n.pc)) ∧
      (∀ a rest, n.stack.entries = a :: rest →
        (n.perform op).verdict = .done ∧ (n.perform op).machine.pc = a ∧
          (n.perform op).machine.stack.entries = rest)) ∧
    (∀ op target pc, n.attempted? op = some (.call target, pc) → (n.perform op).verdict = .done →
      ∀ between, Balanced ((n.perform op).machine.moves between) →
        ∀ last pc', ((n.perform op).machine.after between).attempted? last = some (.ret, pc') →
          let r := ((n.perform op).machine.after between).perform last
          r.verdict = .done ∧ r.machine.pc = pc ∧ r.machine.stack.entries = n.stack.entries) ∧
    (∀ a b : Machine, a.Agree b → ∀ rest,
      List.Forall₂ Outcome.Agree (a.history rest) (b.history rest)) := by
  intro n
  have hm : m.Bounded := (wellFormed_new hnew).toBounded
  have hn : n.Bounded := hm.after ops
  have hempty : m.stack.entries = [] := by
    obtain ⟨-, -, rfl, -⟩ := new_eq_ok_iff.1 hnew
    rfl
  refine ⟨⟨?_, ?_⟩, fun op target pc hi => perform_call hn hi, fun op pc hi => perform_ret hn hi,
    ?_, fun a b hagree => history_agree hagree⟩
  · rw [entries_after hm ops, hempty]
  · rw [CallStack.length_entries]
    exact hn.pointer_le
  · intro op target pc hcall hdone between hbetween last pc' hret
    exact perform_ret_of_balanced hn hcall hdone hbetween hret

/-- A call from outside and a return right after it, on a new machine. -/
theorem call_then_return :
    ∃ m events, Machine.new #[] {} (Vector.replicate 8 0) = .ok (m, events) ∧
      (m.after [.execute (.call 0x300), .execute .ret]).pc = m.pc ∧
      (m.after [.execute (.call 0x300), .execute .ret]).stack.entries = [] := by
  obtain ⟨m, events, hnew⟩ : ∃ m events,
      Machine.new #[] {} (Vector.replicate 8 0) = .ok (m, events) :=
    ⟨_, _, new_eq_ok_iff.2 ⟨by decide, by decide, rfl, rfl⟩⟩
  obtain ⟨⟨hentries, -⟩, hcall, -, hmatch, -⟩ := calls_refine_list hnew []
  have hempty : m.stack.entries = [] := hentries
  have hentered := (hcall (.execute (.call 0x300)) 0x300 m.pc rfl).2
    (by rw [after_nil, hempty]; decide)
  obtain ⟨-, hpc, hafter⟩ := hmatch (.execute (.call 0x300)) 0x300 m.pc rfl hentered.1 [] .nil
    (.execute .ret) _ rfl
  exact ⟨m, events, hnew, hpc, hafter.trans hempty⟩

end Machine

end Chip8
