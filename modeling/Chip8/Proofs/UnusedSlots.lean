import Chip8.Proofs.Addresses

/-! # Unused slots of the stack

    Slot 0 is never written, and the slots above the pointer hold what returns have left behind. Two
    machines that differ in such slots only cannot be told apart: whatever is done to both, all
    outcomes are the same, and the machines still differ in such slots only. They are two machines
    with related addresses, and the relation is equality. -/

namespace Chip8

/-- Two stacks with the same calls in progress: the same pointer and the same slots from 1 up to it.
    All other slots may differ. -/
structure CallStack.Agree (s t : CallStack) : Prop where
  pointer_eq : t.pointer = s.pointer
  slot_eq : ∀ k, 1 ≤ k → k ≤ s.pointer.toNat → t.slots[k]? = s.slots[k]?

/-- Two machines that differ at most in unused slots of the stack. -/
structure Machine.Agree (m n : Machine) : Prop where
  stack : m.stack.Agree n.stack
  rest_eq : n = { m with stack := n.stack }

/-- Two outcomes that differ at most in unused slots of the stack. -/
structure Outcome.Agree (o p : Outcome) : Prop where
  verdict_eq : p.verdict = o.verdict
  events_eq : p.events = o.events
  machine : o.machine.Agree p.machine

/-! ### Equal addresses -/

theorem AddressRelation.eq : AddressRelation Eq where
  refl _ := rfl
  add h c := congrArg (· + c) h
  mod_eq h := congrArg (·.toNat % 4096) h

theorem CallStack.agree_iff {s t : CallStack} : s.Agree t ↔ s.Related Eq t := by
  constructor
  · rintro ⟨hpointer, hslot⟩
    refine ⟨hpointer, ?_⟩
    intro k hk hpos hle
    have heq := hslot k hpos hle
    rw [Vector.getElem?_eq_getElem hk, Vector.getElem?_eq_getElem hk] at heq
    exact (Option.some.inj heq).symm
  · rintro ⟨hpointer, hslot⟩
    refine ⟨hpointer, ?_⟩
    intro k hpos hle
    by_cases hk : k < 16
    · rw [Vector.getElem?_eq_getElem hk, Vector.getElem?_eq_getElem hk, hslot k hk hpos hle]
    · have hout : 16 ≤ k := Nat.le_of_not_lt hk
      rw [Vector.getElem?_eq_none hout, Vector.getElem?_eq_none hout]

theorem Error.Related.eq {e f : Error} (h : e.Related Eq f) : e = f := by
  cases h with
  | unknownOpcode word h => rw [h]
  | stackOverflow h | stackUnderflow h => rw [h]
  | same => rfl

theorem Event.Related.eq {e f : Event} (h : e.Related Eq f) : e = f := by
  cases h with
  | executing h => rw [h]
  | stopped h => rw [h.eq]
  | same => rfl

theorem Verdict.Related.eq {v w : Verdict} (h : v.Related Eq w) : v = w := by
  cases h with
  | failed h => rw [h.eq]
  | done | fault => rfl

variable {m n : Machine}

theorem Machine.agree_iff : m.Agree n ↔ m.Related Eq n := by
  constructor
  · rintro ⟨hstack, hrest⟩
    have hpc : n.pc = m.pc := by rw [hrest]
    have hindex : n.index = m.index := by rw [hrest]
    refine ⟨hpc.symm, hindex.symm, CallStack.agree_iff.1 hstack, ?_⟩
    rw [hpc, hindex]
    exact hrest
  · rintro ⟨hpc, hindex, hstack, hrest⟩
    refine ⟨CallStack.agree_iff.2 hstack, ?_⟩
    rwa [← hpc, ← hindex] at hrest

theorem Outcome.Related.agree {o p : Outcome} (h : o.Related Eq p) : o.Agree p where
  verdict_eq := h.verdict.eq.symm
  events_eq := by
    have hevents := h.events.imp fun _ _ => Event.Related.eq
    rw [List.forall₂_eq_eq_eq] at hevents
    exact hevents.symm
  machine := Machine.agree_iff.2 h.machine

/-- Unused slots are never observed: all outcomes of any operations agree. -/
theorem Machine.history_agree (h : m.Agree n) (ops : List Operation) :
    List.Forall₂ Outcome.Agree (m.history ops) (n.history ops) :=
  ((Machine.agree_iff.1 h).history .eq ops).imp fun _ _ => Outcome.Related.agree

end Chip8
