import Chip8.Proofs.Addresses

/-! # Twelve address bits

    Addresses have sixteen bits, and grow and wrap around as 16-bit words; memory has 4096 cells,
    and an access takes an address modulo 4096. Congruence modulo 4096 is a relation that arithmetic
    keeps and memory does not see, so the upper four bits of an address never matter: machines whose
    addresses are congruent cannot be told apart, and one of them has only twelve bits in each. -/

namespace Chip8

/-- Two addresses of one cell of memory. -/
def SameCell (a b : UInt16) : Prop := a.toNat % 4096 = b.toNat % 4096

instance : DecidableRel SameCell := fun a b =>
  inferInstanceAs (Decidable (a.toNat % 4096 = b.toNat % 4096))

theorem SameCell.isRelation : AddressRelation SameCell where
  refl _ := rfl
  add := by
    intro a b h c
    simp only [SameCell, UInt16.toNat_add] at h ⊢
    omega
  mod_eq := id

theorem SameCell.mod {a b : UInt16} (h : SameCell a b) : SameCell a (b % 4096) := by
  simp only [SameCell, UInt16.toNat_mod, UInt16.reduceToNat, Nat.mod_mod] at h ⊢
  exact h

theorem toNat_mod_lt (a : UInt16) : (a % 4096).toNat < 4096 := by
  rw [UInt16.toNat_mod]
  exact Nat.mod_lt _ (by decide)

/-- Related outcomes have the same number of beeps. -/
theorem Outcome.Related.count_beep {R : UInt16 → UInt16 → Prop} {o p : Outcome}
    (h : o.Related R p) : p.events.count .beep = o.events.count .beep := by
  have hevents := h.events
  generalize o.events = es, p.events = fs at hevents
  induction hevents with
  | nil => rfl
  | cons he _ ih =>
    rw [List.count_cons, List.count_cons, ih]
    cases he <;> rfl

namespace Machine

/-- The machine with every address cut to twelve bits. -/
def narrow (m : Machine) : Machine :=
  { m with
    pc := m.pc % 4096, index := m.index % 4096
    stack := { m.stack with slots := m.stack.slots.map (· % 4096) } }

/-- All addresses have twelve bits. -/
structure IsNarrow (m : Machine) : Prop where
  pc : m.pc.toNat < 4096
  index : m.index.toNat < 4096
  slot : ∀ (k : Nat) (hk : k < 16), m.stack.slots[k].toNat < 4096

/-- Does one operation, and cuts the addresses that it leaves. -/
def narrowPerform (m : Machine) (op : Operation) : Outcome :=
  { m.perform op with machine := (m.perform op).machine.narrow }

/-- The outcomes of operations on a machine that has only twelve bits for an address. -/
def narrowHistory (m : Machine) : List Operation → List Outcome
  | [] => []
  | op :: ops =>
    let o := m.narrowPerform op
    match o.verdict with
    | .fault => [o]
    | .done | .failed _ => o :: o.machine.narrowHistory ops

variable {m n : Machine}

theorem isNarrow_narrow (m : Machine) : m.narrow.IsNarrow := by
  refine ⟨toNat_mod_lt _, toNat_mod_lt _, ?_⟩
  intro k hk
  simp only [narrow, Vector.getElem_map]
  exact toNat_mod_lt _

theorem Related.narrow (h : m.Related SameCell n) : m.Related SameCell n.narrow := by
  refine ⟨h.pc.mod, h.index.mod, ⟨h.stack.pointer_eq, ?_⟩, ?_⟩
  · intro k hk hpos hle
    simp only [Machine.narrow, Vector.getElem_map]
    exact (h.stack.slot k hk hpos hle).mod
  · rw [Machine.narrow, h.rest_eq]

theorem Related.narrowPerform (h : m.Related SameCell n) (op : Operation) :
    (m.perform op).Related SameCell (n.narrowPerform op) :=
  have hop := h.perform SameCell.isRelation op
  ⟨hop.verdict, hop.machine.narrow, hop.events⟩

theorem Related.narrowHistory (h : m.Related SameCell n) (ops : List Operation) :
    List.Forall₂ (Outcome.Related SameCell) (m.history ops) (n.narrowHistory ops) := by
  induction ops generalizing m n with
  | nil => exact .nil
  | cons op ops ih =>
    have hfirst := h.narrowPerform op
    have hrest := ih hfirst.machine
    have hverdict := hfirst.verdict
    rw [Machine.history, Machine.narrowHistory]
    generalize (m.perform op).verdict = v, (n.narrowPerform op).verdict = w at hverdict ⊢
    cases hverdict with
    | fault => exact .cons hfirst .nil
    | done | failed => exact .cons hfirst hrest

theorem isNarrow_of_mem_narrowHistory {ops : List Operation} {o : Outcome}
    (h : o ∈ m.narrowHistory ops) : o.machine.IsNarrow := by
  induction ops generalizing m with
  | nil => cases h
  | cons op ops ih =>
    rw [Machine.narrowHistory] at h
    split at h
    · rw [List.mem_singleton.1 h]
      exact isNarrow_narrow _
    all_goals
      rcases List.mem_cons.1 h with rfl | h
      · exact isNarrow_narrow _
      · exact ih h

/-- Machines whose addresses are congruent modulo 4096 cannot be told apart: every operation ends
    alike on both, with as many beeps, and leaves them congruent. In particular a machine with
    twelve bits for each address does all that one with sixteen does. On a well-formed machine
    operations in range do not fault, so none of them is missing. -/
theorem history_related_sameCell (h : m.Related SameCell n) (ops : List Operation) :
    List.Forall₂ (fun o p => o.Related SameCell p ∧ p.events.count .beep = o.events.count .beep)
      (m.history ops) (n.history ops) ∧
    (List.Forall₂ (Outcome.Related SameCell) (m.history ops) (m.narrow.narrowHistory ops) ∧
      m.narrow.IsNarrow ∧ ∀ o ∈ m.narrow.narrowHistory ops, o.machine.IsNarrow) ∧
    (m.WellFormed → (∀ op ∈ ops, op.InRange) →
      (m.history ops).length = ops.length ∧ ∀ o ∈ m.history ops, o.verdict ≠ .fault) := by
  have hsame := Related.refl SameCell.isRelation m
  refine ⟨?_, ⟨hsame.narrow.narrowHistory ops, isNarrow_narrow m,
    fun o ho => isNarrow_of_mem_narrowHistory ho⟩, ?_⟩
  · exact (h.history SameCell.isRelation ops).imp fun o p hop => ⟨hop, hop.count_beep⟩
  · intro hm hops
    obtain ⟨hlength, hall⟩ := hm.history hops
    exact ⟨hlength, fun o ho => (hall o ho).1⟩

/-- A new machine and one whose counter lies 4096 higher: an unknown word, a call from outside, and
    a key. -/
theorem history_related_counter_above :
    ∃ m events, Machine.new #[] {} (Vector.replicate 8 0) = .ok (m, events) ∧
      let n := { m with pc := m.pc + 0x1000 }
      let ops : List Operation := [.step, .execute (.call 0x300), .press 3]
      n.pc ≠ m.pc ∧ List.Forall₂ (Outcome.Related SameCell) (m.history ops) (n.history ops) ∧
        (m.history ops).length = 3 := by
  obtain ⟨m, events, hnew⟩ : ∃ m events,
      Machine.new #[] {} (Vector.replicate 8 0) = .ok (m, events) :=
    ⟨_, _, new_eq_ok_iff.2 ⟨by decide, by decide, rfl, rfl⟩⟩
  refine ⟨m, events, hnew, ?_⟩
  intro n ops
  have hpc : m.pc = 0x200 := by
    obtain ⟨-, -, rfl, -⟩ := new_eq_ok_iff.1 hnew
    rfl
  have hrelated : m.Related SameCell n := by
    refine ⟨?_, rfl, .refl SameCell.isRelation _, rfl⟩
    simp only [n, hpc]
    decide
  have hops : ∀ op ∈ ops, op.InRange := by
    simp [ops, Operation.InRange, Instruction.InRange, Instruction.operands, Operand.InRange]
  obtain ⟨houtcomes, -, hcomplete⟩ := history_related_sameCell hrelated ops
  refine ⟨?_, houtcomes.imp fun _ _ hop => hop.1, (hcomplete (wellFormed_new hnew) hops).1⟩
  simp only [n, hpc]
  decide

end Machine

end Chip8
