import Chip8.Proofs.Reachable

/-! # Related addresses

    A machine keeps addresses in its counter, in `I` and in the slots of its stack. Take two
    machines that differ in addresses only, and a relation between the addresses of one and the
    other that arithmetic keeps and memory does not see. Then the relation lasts: whatever is done
    to both, the outcomes are the same but for related addresses, and so are the machines. Slot 0
    and the slots above the pointer need not be related, since nothing looks at them. -/

namespace Chip8

/-- A relation between addresses that lasts under additions and cannot be told by reading memory. -/
structure AddressRelation (R : UInt16 → UInt16 → Prop) : Prop where
  refl : ∀ a, R a a
  add : ∀ {a b : UInt16}, R a b → ∀ c, R (a + c) (b + c)
  mod_eq : ∀ {a b : UInt16}, R a b → a.toNat % 4096 = b.toNat % 4096

/-- Two stacks with the same number of calls in progress and related return addresses. -/
structure CallStack.Related (R : UInt16 → UInt16 → Prop) (s t : CallStack) : Prop where
  pointer_eq : t.pointer = s.pointer
  slot : ∀ (k : Nat) (hk : k < 16), 1 ≤ k → k ≤ s.pointer.toNat → R s.slots[k] t.slots[k]

/-- Two machines that differ at most in addresses, which are related. -/
structure Machine.Related (R : UInt16 → UInt16 → Prop) (m n : Machine) : Prop where
  pc : R m.pc n.pc
  index : R m.index n.index
  stack : m.stack.Related R n.stack
  rest_eq : n = { m with pc := n.pc, index := n.index, stack := n.stack }

/-- Two errors that differ at most in the address of the instruction. -/
inductive Error.Related (R : UInt16 → UInt16 → Prop) : Error → Error → Prop where
  | unknownOpcode (word : UInt16) {a b : UInt16} (h : R a b) :
      Related R (.unknownOpcode word a) (.unknownOpcode word b)
  | stackOverflow {a b : UInt16} (h : R a b) : Related R (.stackOverflow a) (.stackOverflow b)
  | stackUnderflow {a b : UInt16} (h : R a b) : Related R (.stackUnderflow a) (.stackUnderflow b)
  | same (e : Error) : Related R e e

/-- Two events that differ at most in the address of the instruction. -/
inductive Event.Related (R : UInt16 → UInt16 → Prop) : Event → Event → Prop where
  | executing {a b : UInt16} (h : R a b) (i : Instruction) :
      Related R (.note (.executing a i)) (.note (.executing b i))
  | stopped {e f : Error} (h : e.Related R f) : Related R (.note (.stopped e)) (.note (.stopped f))
  | same (e : Event) : Related R e e

/-- Both done, both failed with related errors, or both met a fault. -/
inductive Verdict.Related (R : UInt16 → UInt16 → Prop) : Verdict → Verdict → Prop where
  | done : Related R .done .done
  | failed {e f : Error} (h : e.Related R f) : Related R (.failed e) (.failed f)
  | fault : Related R .fault .fault

/-- Two outcomes that differ at most in addresses. -/
structure Outcome.Related (R : UInt16 → UInt16 → Prop) (o p : Outcome) : Prop where
  verdict : o.verdict.Related R p.verdict
  machine : o.machine.Related R p.machine
  events : List.Forall₂ (Event.Related R) o.events p.events

variable {R : UInt16 → UInt16 → Prop}

theorem Event.related_refl (events : List Event) : List.Forall₂ (Event.Related R) events events :=
  List.forall₂_same.2 fun e _ => .same e

theorem Verdict.Related.eq_done_iff {v w : Verdict} (h : v.Related R w) :
    w = .done ↔ v = .done := by
  cases h <;> simp

/-! ### Memory -/

namespace Memory

variable (m : Memory) {a b : Nat} (h : a % 4096 = b % 4096)

include h

theorem read_congr : m.read a = m.read b := by
  simp only [read, h]

theorem write_congr (v : UInt8) : m.write a v = m.write b v := by
  simp only [write, h]

theorem slice_congr (n : Nat) : m.slice a n = m.slice b n :=
  List.map_congr_left fun _ _ => m.read_congr (by omega)

theorem store_congr (bytes : List UInt8) : m.store a bytes = m.store b bytes := by
  induction bytes generalizing m a b with
  | nil => rfl
  | cons v bytes ih =>
    rw [store, store, m.write_congr h]
    exact ih _ (by omega)

end Memory

/-! ### The stack -/

namespace CallStack

variable {s t : CallStack}

theorem Related.refl (hR : AddressRelation R) (s : CallStack) : s.Related R s :=
  ⟨rfl, fun _ _ _ _ => hR.refl _⟩

theorem Related.top? (h : s.Related R t) (hpointer : s.pointer ≠ 0) :
    (s.top? = none ∧ t.top? = none) ∨ ∃ a b, s.top? = some a ∧ t.top? = some b ∧ R a b := by
  have hpos : 1 ≤ s.pointer.toNat :=
    UInt8.lt_iff_toNat_lt.1 (UInt8.pos_iff_ne_zero.2 hpointer)
  rw [CallStack.top?, CallStack.top?, h.pointer_eq]
  by_cases hk : s.pointer.toNat < 16
  · exact Or.inr ⟨_, _, Vector.getElem?_eq_getElem hk, Vector.getElem?_eq_getElem hk,
      h.slot _ hk hpos (Nat.le_refl _)⟩
  · have hout : 16 ≤ s.pointer.toNat := Nat.le_of_not_lt hk
    exact Or.inl ⟨Vector.getElem?_eq_none hout, Vector.getElem?_eq_none hout⟩

theorem Related.drop (h : s.Related R t) (hpointer : s.pointer ≠ 0) : s.drop.Related R t.drop := by
  refine ⟨congrArg (· - 1) h.pointer_eq, ?_⟩
  intro k hk hpos hle
  rw [s.pointer_drop hpointer] at hle
  exact h.slot k hk hpos (by omega)

/-- Calls with related return addresses are entered on both, or on neither. -/
theorem Related.push? (h : s.Related R t) {a b : UInt16} (hab : R a b) :
    (s.push? a = none ∧ t.push? b = none) ∨
      ∃ s' t', s.push? a = some s' ∧ t.push? b = some t' ∧ s'.Related R t' := by
  by_cases hfree : s.pointer.toNat + 1 < 16
  · have hfree' : t.pointer.toNat + 1 < 16 := h.pointer_eq ▸ hfree
    refine Or.inr ⟨_, _, dif_pos hfree, dif_pos hfree', congrArg (· + 1) h.pointer_eq, ?_⟩
    intro k hk hpos hle
    rw [UInt8.toNat_add] at hle
    simp only [UInt8.reduceToNat] at hle
    simp only [Vector.getElem_set, h.pointer_eq]
    split
    · exact hab
    · exact h.slot k hk hpos (by omega)
  · have hfull : ¬ t.pointer.toNat + 1 < 16 := h.pointer_eq ▸ hfree
    exact Or.inl ⟨dif_neg hfree, dif_neg hfull⟩

end CallStack

namespace Machine

/-- Two results of an instruction that differ at most in addresses. -/
inductive ResultsRelated (R : UInt16 → UInt16 → Prop) :
    Except Stop Machine → Except Stop Machine → Prop where
  | ok {a b : Machine} (h : a.Related R b) : ResultsRelated R (.ok a) (.ok b)
  | error {e f : Error} (he : e.Related R f) {a b : Machine} (h : a.Related R b) :
      ResultsRelated R (.error (.error e a)) (.error (.error f b))
  | fault : ResultsRelated R (.error .fault) (.error .fault)

variable {m n : Machine} {origin origin' : UInt16}

theorem Related.refl (hR : AddressRelation R) (m : Machine) : m.Related R m :=
  ⟨hR.refl _, hR.refl _, .refl hR _, rfl⟩

/-- Related machines are one machine with two sets of addresses. -/
theorem Related.exists_addresses (h : m.Related R n) :
    ∃ pc index stack, R m.pc pc ∧ R m.index index ∧ m.stack.Related R stack ∧
      n = { m with pc, index, stack } :=
  ⟨n.pc, n.index, n.stack, h.pc, h.index, h.stack, h.rest_eq⟩

/-! ### Instructions -/

/-- What starts with one computation and goes on to related results. -/
theorem ResultsRelated.bind {α : Type} (hR : AddressRelation R) (c : Except Stop α)
    {f g : α → Except Stop Machine} (h : ∀ a, ResultsRelated R (f a) (g a)) :
    ResultsRelated R (c >>= f) (c >>= g) := by
  rcases c with (_ | _) | a
  · exact .error (.same _) (.refl hR _)
  · exact .fault
  · exact h a

theorem Related.skipIf (hR : AddressRelation R) (h : m.Related R n) (c : Bool) :
    (m.skipIf c).Related R (n.skipIf c) := by
  obtain ⟨pc, index, stack, hpc, hindex, hstack, rfl⟩ := h.exists_addresses
  cases c
  · exact ⟨hpc, hindex, hstack, rfl⟩
  · exact ⟨hR.add hpc 2, hindex, hstack, rfl⟩

theorem Related.get_eq (h : m.Related R n) (x : UInt8) : n.get x = m.get x := by
  rw [h.rest_eq]
  rfl

theorem Related.set (hR : AddressRelation R) (h : m.Related R n) (x v : UInt8) :
    ResultsRelated R (m.set x v) (n.set x v) := by
  obtain ⟨pc, index, stack, hpc, hindex, hstack, rfl⟩ := h.exists_addresses
  exact .bind hR _ fun registers => .ok ⟨hpc, hindex, hstack, rfl⟩

theorem Related.setWithFlag (hR : AddressRelation R) (h : m.Related R n) (x v : UInt8)
    (on : Bool) : ResultsRelated R (m.setWithFlag x v on) (n.setWithFlag x v on) := by
  obtain ⟨pc, index, stack, hpc, hindex, hstack, rfl⟩ := h.exists_addresses
  simp only [Machine.setWithFlag, Machine.set, bind_assoc, pure_bind]
  exact .bind hR _ fun registers => .ok ⟨hpc, hindex, hstack, rfl⟩

theorem Related.drawSprite (hR : AddressRelation R) (h : m.Related R n) (x y rows : UInt8) :
    ResultsRelated R (m.drawSprite x y rows) (n.drawSprite x y rows) := by
  obtain ⟨pc, index, stack, hpc, hindex, hstack, rfl⟩ := h.exists_addresses
  simp only [Machine.drawSprite, m.memory.slice_congr (hR.mod_eq hindex)]
  exact .bind hR _ fun _ => .ok ⟨hpc, hindex, hstack, rfl⟩

theorem Related.effect_call (h : m.Related R n) (ho : R origin origin') (target : UInt16)
    (hR : AddressRelation R) :
    ResultsRelated R (m.effect origin (.call target)) (n.effect origin' (.call target)) := by
  obtain ⟨pc, index, stack, hpc, hindex, hstack, rfl⟩ := h.exists_addresses
  rw [effect, effect]
  rcases hstack.push? hpc with ⟨hs, ht⟩ | ⟨s', t', hs, ht, hafter⟩
  · rw [hs, ht]
    exact .error (.stackOverflow ho) ⟨hpc, hindex, hstack, rfl⟩
  · rw [hs, ht]
    exact .ok ⟨hR.refl target, hindex, hafter, rfl⟩

theorem Related.effect_ret (h : m.Related R n) (ho : R origin origin') :
    ResultsRelated R (m.effect origin .ret) (n.effect origin' .ret) := by
  obtain ⟨pc, index, stack, hpc, hindex, hstack, rfl⟩ := h.exists_addresses
  rw [effect, effect]
  by_cases hpointer : m.stack.pointer = 0
  · rw [if_pos hpointer, if_pos (hstack.pointer_eq.trans hpointer)]
    exact .error (.stackUnderflow ho) ⟨hpc, hindex, hstack, rfl⟩
  · have hpointer' : stack.pointer ≠ 0 := hstack.pointer_eq ▸ hpointer
    rw [if_neg hpointer, if_neg hpointer']
    rcases hstack.top? hpointer with ⟨hs, ht⟩ | ⟨a, b, hs, ht, hab⟩
    · rw [hs, ht]
      exact .fault
    · rw [hs, ht]
      exact .ok ⟨hab, hindex, hstack.drop hpointer, rfl⟩

/-- Related machines stay related under any instruction. -/
theorem Related.effect (hR : AddressRelation R) (h : m.Related R n) (ho : R origin origin')
    (i : Instruction) : ResultsRelated R (m.effect origin i) (n.effect origin' i) := by
  -- what both machines have in common becomes the same term, so only addresses remain to compare
  obtain ⟨pc, index, stack, hpc, hindex, hstack, hn⟩ := h.exists_addresses
  have hget := h.get_eq
  subst hn
  cases i with
  | call target => exact h.effect_call ho target hR
  | ret => exact h.effect_ret ho
  | skipEqConst | skipNeConst | skipKeyDown | skipKeyUp =>
    simp only [Machine.effect, hget]
    exact .bind hR _ fun _ => .ok (h.skipIf hR _)
  | skipEq | skipNe =>
    simp only [Machine.effect, hget]
    exact .bind hR _ fun _ => .bind hR _ fun _ => .ok (h.skipIf hR _)
  | setConst | readDelay => exact h.set hR _ _
  | addConst | move =>
    simp only [Machine.effect, hget]
    exact .bind hR _ fun _ => h.set hR _ _
  | or | and | xor =>
    simp only [Machine.effect, hget]
    exact .bind hR _ fun _ => .bind hR _ fun _ => h.set hR _ _
  | add | sub | subFrom =>
    simp only [Machine.effect, hget]
    exact .bind hR _ fun _ => .bind hR _ fun _ => h.setWithFlag hR _ _ _
  | shiftRight | shiftLeft =>
    simp only [Machine.effect, hget]
    exact .bind hR _ fun _ => h.setWithFlag hR _ _ _
  | random x mask =>
    have hdrawn : Machine.Related R { m with generator := m.generator.next.2 }
        { m with pc, index, stack, generator := m.generator.next.2 } := ⟨hpc, hindex, hstack, rfl⟩
    exact hdrawn.set hR _ _
  | draw =>
    simp only [Machine.effect, hget]
    exact .bind hR _ fun _ => .bind hR _ fun _ => h.drawSprite hR _ _ _
  | clearScreen | awaitKey => exact .ok ⟨hpc, hindex, hstack, rfl⟩
  | setDelay | setSound =>
    simp only [Machine.effect, hget]
    exact .bind hR _ fun _ => .ok ⟨hpc, hindex, hstack, rfl⟩
  | jump target => exact .ok ⟨hR.refl target, hindex, hstack, rfl⟩
  | jumpIndexed =>
    simp only [Machine.effect, hget]
    exact .bind hR _ fun _ => .ok ⟨hR.refl _, hindex, hstack, rfl⟩
  | setIndex target => exact .ok ⟨hpc, hR.refl target, hstack, rfl⟩
  | glyph =>
    simp only [Machine.effect, hget]
    exact .bind hR _ fun _ => .ok ⟨hpc, hR.refl _, hstack, rfl⟩
  | addIndex =>
    simp only [Machine.effect, hget]
    exact .bind hR _ fun _ => .ok ⟨hpc, hR.add hindex _, hstack, rfl⟩
  | decimal =>
    simp only [Machine.effect, hget, m.memory.store_congr (hR.mod_eq hindex)]
    exact .bind hR _ fun _ => .ok ⟨hpc, hindex, hstack, rfl⟩
  | store =>
    simp only [Machine.effect, m.memory.store_congr (hR.mod_eq hindex)]
    exact .bind hR _ fun _ => .ok ⟨hpc, hindex, hstack, rfl⟩
  | load =>
    simp only [Machine.effect, m.memory.slice_congr (hR.mod_eq hindex)]
    exact .bind hR _ fun _ => .ok ⟨hpc, hindex, hstack, rfl⟩

/-! ### Operations -/

theorem Related.fetch (hR : AddressRelation R) (h : m.Related R n) : n.fetch = m.fetch := by
  have hfirst := hR.mod_eq h.pc
  have hsecond : (m.pc.toNat + 1) % 4096 = (n.pc.toNat + 1) % 4096 := by omega
  have hmemory : n.memory = m.memory := by rw [h.rest_eq]
  rw [Machine.fetch, Machine.fetch, hmemory, m.memory.read_congr hfirst,
    m.memory.read_congr hsecond]

theorem Related.count (h : m.Related R n) :
    m.count.1.Related R n.count.1 ∧ n.count.2 = m.count.2 := by
  obtain ⟨pc, index, stack, hpc, hindex, hstack, rfl⟩ := h.exists_addresses
  dsimp only [Machine.count]
  split <;> exact ⟨⟨hpc, hindex, hstack, rfl⟩, rfl⟩

theorem Related.execute (hR : AddressRelation R) (h : m.Related R n) (i : Instruction) :
    (m.execute i).Related R (n.execute i) := by
  have hresults := h.effect hR h.pc i
  rw [Machine.execute, Machine.execute]
  generalize m.effect m.pc i = r, n.effect n.pc i = r' at hresults ⊢
  cases hresults with
  | ok hafter => exact ⟨.done, hafter, Event.related_refl _⟩
  | error he hleft => exact ⟨.failed he, hleft, .nil⟩
  | fault => exact ⟨.fault, h, .nil⟩

theorem Related.executeAll (hR : AddressRelation R) (h : m.Related R n) (is : List Instruction) :
    (m.executeAll is).Related R (n.executeAll is) := by
  induction is generalizing m n with
  | nil => exact ⟨.done, h, .nil⟩
  | cons i is ih =>
    have hfirst := h.execute hR i
    rw [executeAll_cons, executeAll_cons, if_congr hfirst.verdict.eq_done_iff rfl rfl]
    split
    · have hrest := ih hfirst.machine
      exact ⟨hrest.verdict, hrest.machine, List.rel_append hfirst.events hrest.events⟩
    · exact hfirst

theorem Related.step (hR : AddressRelation R) (h : m.Related R n) : m.step.Related R n.step := by
  have hfetch := h.fetch hR
  obtain ⟨pc, index, stack, hpc, hindex, hstack, rfl⟩ := h.exists_addresses
  have hwaits : { m with pc, index, stack }.isWaiting = m.isWaiting := rfl
  rw [Machine.step, Machine.step, nextInstruction?, nextInstruction?, hwaits, hfetch]
  cases m.isWaiting with
  | true => exact ⟨.done, h, .nil⟩
  | false =>
    cases Instruction.decode? m.fetch with
    | none =>
      have he : Error.Related R (.unknownOpcode m.fetch.word m.pc)
          (.unknownOpcode m.fetch.word pc) := .unknownOpcode _ hpc
      exact ⟨.failed he, h, .cons (.stopped he) .nil⟩
    | some i =>
      have htrace : Event.Related R (.note (.executing m.pc i)) (.note (.executing pc i)) :=
        .executing hpc i
      have hmoved : Machine.Related R { m with pc := m.pc + 2 }
          { m with pc := pc + 2, index, stack } := ⟨hR.add hpc 2, hindex, hstack, rfl⟩
      have hresults := hmoved.effect hR hpc i
      simp only [Bool.false_eq_true, if_false]
      generalize Machine.effect { m with pc := m.pc + 2 } m.pc i = r,
        Machine.effect { m with pc := pc + 2, index, stack } pc i = r' at hresults ⊢
      cases hresults with
      | fault => exact ⟨.fault, h, .cons htrace .nil⟩
      | error he hleft =>
        obtain ⟨_, _, _, -, hindex', hstack', rfl⟩ := hleft.exists_addresses
        exact ⟨.failed he, ⟨hpc, hindex', hstack', rfl⟩, .cons htrace (.cons (.stopped he) .nil)⟩
      | ok hafter =>
        have hreports := List.Forall₂.cons htrace (Event.related_refl (R := R) (reports i))
        by_cases hspeed : m.settings.speed = 0
        · simp only [if_pos hspeed]
          exact ⟨.fault, hafter, hreports⟩
        · obtain ⟨hcounted, hevents⟩ := hafter.count
          simp only [if_neg hspeed, hevents]
          exact ⟨.done, hcounted, List.rel_append hreports (Event.related_refl _)⟩

theorem Related.press (h : m.Related R n) (key : UInt8) :
    (m.press key).Related R (n.press key) := by
  obtain ⟨pc, index, stack, hpc, hindex, hstack, rfl⟩ := h.exists_addresses
  rw [Machine.press, Machine.press]
  rcases m.keypad.press key with e | ⟨_ | x, keypad⟩
  · exact ⟨.failed (.same e), h, .cons (.same _) .nil⟩
  · exact ⟨.done, ⟨hpc, hindex, hstack, rfl⟩, .cons (.same _) .nil⟩
  · cases hset : m.registers.set? x key with
    | none => simp only [hset]; exact ⟨.fault, h, .nil⟩
    | some registers =>
      simp only [hset]
      exact ⟨.done, ⟨hpc, hindex, hstack, rfl⟩, .cons (.same _) .nil⟩

theorem Related.release (h : m.Related R n) (key : UInt8) :
    (m.release key).Related R (n.release key) := by
  obtain ⟨pc, index, stack, hpc, hindex, hstack, rfl⟩ := h.exists_addresses
  rw [Machine.release, Machine.release]
  cases m.keypad.release key with
  | error e => exact ⟨.failed (.same e), h, .cons (.same _) .nil⟩
  | ok keypad => exact ⟨.done, ⟨hpc, hindex, hstack, rfl⟩, .cons (.same _) .nil⟩

theorem Related.load (hR : AddressRelation R) (h : m.Related R n) (rom : Array UInt8) :
    (m.load rom).Related R (n.load rom) := by
  obtain ⟨pc, index, stack, hpc, hindex, hstack, rfl⟩ := h.exists_addresses
  -- said of any memory, so that the program is not compared cell by cell
  have hloaded : ∀ memory pc events, Outcome.Related R ⟨.done, { m with memory, pc }, events⟩
      ⟨.done, { m with memory, pc, index, stack }, events⟩ :=
    fun _ _ _ => ⟨.done, ⟨hR.refl _, hindex, hstack, rfl⟩, Event.related_refl _⟩
  rw [Machine.load, Machine.load]
  by_cases hrom : Memory.maxRom < rom.size
  · rw [if_pos hrom, if_pos hrom]
    exact ⟨.failed (.same _), h, .nil⟩
  · rw [if_neg hrom, if_neg hrom]
    exact hloaded _ _ _

theorem Related.perform (hR : AddressRelation R) (h : m.Related R n) (op : Operation) :
    (m.perform op).Related R (n.perform op) := by
  cases op with
  | step => exact h.step hR
  | execute i => exact h.execute hR i
  | executeAll is => exact h.executeAll hR is
  | press key => exact h.press key
  | release key => exact h.release key
  | load rom => exact h.load hR rom

/-- Related machines stay related under any operations, and nothing but addresses tells the outcomes
    of one from those of the other. -/
theorem Related.history (hR : AddressRelation R) (h : m.Related R n) (ops : List Operation) :
    List.Forall₂ (Outcome.Related R) (m.history ops) (n.history ops) := by
  induction ops generalizing m n with
  | nil => exact .nil
  | cons op ops ih =>
    have hfirst := h.perform hR op
    have hrest := ih hfirst.machine
    have hverdict := hfirst.verdict
    rw [Machine.history, Machine.history]
    generalize (m.perform op).verdict = v, (n.perform op).verdict = w at hverdict ⊢
    cases hverdict with
    | fault => exact .cons hfirst .nil
    | done | failed => exact .cons hfirst hrest

end Machine

end Chip8
