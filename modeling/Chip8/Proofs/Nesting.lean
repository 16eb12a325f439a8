import Chip8.Proofs.Runs

/-! # Nested calls

    Instructions from outside are executed in order, up to the first that is refused. Only calls and
    returns are ever refused, and only they move the stack pointer, by one each. So counting decides
    how far a list gets: it is carried out up to the first instruction where the calls in progress,
    and the calls of the list less its returns, are more than the stack holds or fewer than none.
    Nothing else about the machine matters, neither its counter nor a wait for a key: no instruction
    of the list is fetched, and none is held back. -/

namespace Chip8

namespace Instruction

/-- Whether an instruction enters a call. -/
def isCall : Instruction → Bool
  | .call _ => true
  | _ => false

/-- Whether an instruction leaves a call. -/
def isReturn : Instruction → Bool
  | .ret => true
  | _ => false

/-- The calls in progress after instructions, if there were `d` before them and none is refused. -/
def depth (d : Int) (is : List Instruction) : Int := d + is.countP isCall - is.countP isReturn

/-- A number of calls in progress that the stack can hold. -/
def IsDepth (d : Int) : Prop := 0 ≤ d ∧ d ≤ 15

/-- The stack can hold the calls in progress after each prefix. -/
def Nested (d : Int) (is : List Instruction) : Prop :=
  ∀ before, before <+: is → IsDepth (depth d before)

/-- Why an instruction at `pc` is refused: a call for want of room, a return for want of a call. -/
def RefusedWith (pc : UInt16) (i : Instruction) (e : Error) : Prop :=
  ((∃ target, i = .call target) ∧ e = .stackOverflow pc) ∨ (i = .ret ∧ e = .stackUnderflow pc)

/-! ### Counting -/

theorem depth_cons (d : Int) (i : Instruction) (is : List Instruction) :
    depth d (i :: is) = depth (depth d [i]) is := by
  simp only [depth, List.countP_cons, List.countP_nil]
  omega

@[simp] theorem depth_call (d : Int) (target : UInt16) : depth d [.call target] = d + 1 := by
  simp [depth, isCall, isReturn]

@[simp] theorem depth_ret (d : Int) : depth d [.ret] = d - 1 := by
  simp [depth, isCall, isReturn]

theorem depth_of_isPlain {i : Instruction} (hi : i.isPlain = true) (d : Int) :
    depth d [i] = d := by
  cases i with
  | call | ret => cases hi
  | _ => simp [depth, isCall, isReturn]

theorem nested_nil_iff {d : Int} : Nested d [] ↔ IsDepth d := by
  simp [Nested, depth]

theorem nested_cons_iff {d : Int} {i : Instruction} {is : List Instruction} :
    Nested d (i :: is) ↔ IsDepth d ∧ Nested (depth d [i]) is := by
  constructor
  · intro h
    refine ⟨by simpa [depth] using h [] List.nil_prefix, fun before hbefore => ?_⟩
    rw [← depth_cons]
    exact h (i :: before) ((List.prefix_cons_inj i).2 hbefore)
  · rintro ⟨hd, h⟩ before hbefore
    rcases List.prefix_cons_iff.1 hbefore with rfl | ⟨before, rfl, hrest⟩
    · simpa [depth] using hd
    · rw [depth_cons]
      exact h before hrest

/-- Where nesting fails, there is a first instruction at which it does. -/
theorem exists_first_not_isDepth {d : Int} (hd : IsDepth d) {is : List Instruction}
    (h : ¬ Nested d is) :
    ∃ before i rest, is = before ++ i :: rest ∧ Nested d before ∧
      ¬ IsDepth (depth d (before ++ [i])) := by
  induction is generalizing d with
  | nil => exact absurd (nested_nil_iff.2 hd) h
  | cons i is ih =>
    by_cases hi : IsDepth (depth d [i])
    · obtain ⟨before, j, rest, rfl, hbefore, hj⟩ := ih hi fun hn => h (nested_cons_iff.2 ⟨hd, hn⟩)
      refine ⟨i :: before, j, rest, rfl, nested_cons_iff.2 ⟨hd, hbefore⟩, ?_⟩
      rwa [List.cons_append, depth_cons]
    · exact ⟨[], i, is, rfl, nested_nil_iff.2 hd, hi⟩

end Instruction

namespace Machine

open Instruction (depth IsDepth Nested RefusedWith)

/-- The number of calls in progress. -/
def callDepth (m : Machine) : Int := m.stack.pointer.toNat

variable {m : Machine} {i : Instruction} {is before : List Instruction}

theorem Bounded.isDepth (h : m.Bounded) : IsDepth m.callDepth :=
  ⟨Int.natCast_nonneg _, Int.ofNat_le.2 h.pointer_le⟩

/-! ### One instruction -/

theorem callDepth_of_changed {after : Machine} (h : Changed m i after) :
    after.callDepth = depth m.callDepth [i] := by
  cases h with
  | plain hi => exact (Instruction.depth_of_isPlain hi _).symm
  | ret hpointer =>
    have hpos : 0 < m.stack.pointer.toNat :=
      UInt8.lt_iff_toNat_lt.1 (UInt8.pos_iff_ne_zero.2 hpointer)
    have hdrop := m.stack.pointer_drop hpointer
    simp only [callDepth, hdrop, Instruction.depth_ret]
    omega
  | call hpush => simp [callDepth, (CallStack.pointer_push? hpush).1]
  | _ => simp [depth, Instruction.isCall, Instruction.isReturn, callDepth]

/-- An instruction is carried out if the stack holds the calls after it, and refused otherwise. -/
theorem execute_cases (h : m.Bounded) (hi : i.InRange) :
    (IsDepth (depth m.callDepth [i]) ∧ (m.execute i).verdict = .done ∧
      (m.execute i).machine.callDepth = depth m.callDepth [i]) ∨
    (¬ IsDepth (depth m.callDepth [i]) ∧
      ∃ e, RefusedWith m.pc i e ∧ m.execute i = ⟨.failed e, m, []⟩) := by
  have hexecuted := executed m i
  have hfault := hexecuted.ne_fault hi h.pointer_le
  have hafter : (m.execute i).machine.Bounded := h.of_executed hexecuted
  generalize m.execute i = o at hexecuted hfault hafter
  cases hexecuted with
  | fault => exact absurd rfl hfault
  | done heffect =>
    have hdepth := callDepth_of_changed (changed_of_effect heffect)
    exact Or.inl ⟨hdepth ▸ hafter.isDepth, rfl, hdepth⟩
  | @refused e he =>
    rcases (refusal?_eq_some_iff h.pointer_le).1 he with
      ⟨⟨target, rfl⟩, hfull, he⟩ | ⟨rfl, hempty, he⟩
    · exact Or.inr ⟨by simp [IsDepth, callDepth, hfull], e, Or.inl ⟨⟨target, rfl⟩, he⟩, rfl⟩
    · exact Or.inr ⟨by simp [IsDepth, callDepth, hempty], e, Or.inr ⟨rfl, he⟩, rfl⟩

/-! ### Lists of instructions -/

/-- What executing a list comes to: it was carried out up to `before`, one instruction at a time. -/
structure CarriedOutUpTo (m : Machine) (is before : List Instruction) (v : Verdict) : Prop where
  executeAll_eq :
    m.executeAll is = ⟨v, m.after (before.map .execute), m.events (before.map .execute)⟩
  carriedOut_eq : (m.carriedOutAll is).map Prod.snd = before

theorem CarriedOutUpTo.cons {v : Verdict} (hdone : (m.execute i).verdict = .done)
    (h : (m.execute i).machine.CarriedOutUpTo is before v) :
    m.CarriedOutUpTo (i :: is) (i :: before) v := by
  obtain ⟨hall, hcarried⟩ := h
  constructor
  · rw [executeAll_cons, if_pos hdone, hall]
    rfl
  · rw [carriedOutAll, if_pos hdone, List.map_cons, hcarried]

/-- A nested list is carried out. -/
theorem carriedOutUpTo_of_nested (h : m.Bounded) (his : ∀ i ∈ is, i.InRange)
    (hnested : Nested m.callDepth is) : m.CarriedOutUpTo is is .done := by
  induction is generalizing m with
  | nil => exact ⟨rfl, rfl⟩
  | cons i is ih =>
    obtain ⟨hi, his⟩ := List.forall_mem_cons.1 his
    have hrest := (Instruction.nested_cons_iff.1 hnested).2
    rcases execute_cases h hi with ⟨-, hdone, hdepth⟩ | ⟨hnot, -⟩
    · rw [← hdepth] at hrest
      exact (ih (h.of_executed (executed m i)) his hrest).cons hdone
    · exact absurd (hrest [] List.nil_prefix) (by simpa [depth] using hnot)

/-- A list that is nested up to one instruction stops there. -/
theorem exists_carriedOutUpTo_of_not_isDepth (h : m.Bounded) {rest : List Instruction}
    (his : ∀ j ∈ before ++ i :: rest, j.InRange) (hnested : Nested m.callDepth before)
    (hi : ¬ IsDepth (depth m.callDepth (before ++ [i]))) :
    ∃ e, RefusedWith (m.after (before.map .execute)).pc i e ∧
      m.CarriedOutUpTo (before ++ i :: rest) before (.failed e) := by
  induction before generalizing m with
  | nil =>
    rcases execute_cases h (his i List.mem_cons_self) with ⟨hdepth, -⟩ | ⟨-, e, he, hrefused⟩
    · exact absurd hdepth hi
    · have hnot : (m.execute i).verdict ≠ .done := by
        rw [hrefused]
        nofun
      refine ⟨e, he, ?_, ?_⟩
      · rw [List.nil_append, executeAll_cons, if_neg hnot, hrefused]
        rfl
      · rw [List.nil_append, carriedOutAll, if_neg hnot]
        rfl
  | cons j before ih =>
    obtain ⟨hj, his⟩ := List.forall_mem_cons.1 his
    have hrest := (Instruction.nested_cons_iff.1 hnested).2
    rw [List.cons_append, Instruction.depth_cons] at hi
    rcases execute_cases h hj with ⟨-, hdone, hdepth⟩ | ⟨hnot, -⟩
    · rw [← hdepth] at hrest hi
      obtain ⟨e, he, hupTo⟩ := ih (h.of_executed (executed m j)) his hrest hi
      exact ⟨e, he, hupTo.cons hdone⟩
    · exact absurd (hrest [] List.nil_prefix) (by simpa [depth] using hnot)

/-- How far a list of instructions gets is a matter of counting. All of it is carried out just if,
    for each prefix, the calls in progress and the calls of the prefix less its returns are from 0
    to 15. Otherwise it stops at the first instruction whose prefix leaves that range: a call with
    the error of a full stack or a return with that of an empty one, both at the counter reached
    there; the machine is the one that the instructions before it leave, and those are what was
    carried out. No other part of the machine has a say in it, neither the counter nor a wait for a
    key. -/
theorem executeAll_done_iff_nested {allowed : Operation → Prop} (h : Reachable allowed m)
    (his : ∀ i ∈ is, i.InRange) :
    let d : Int := m.stack.pointer.toNat
    ((m.executeAll is).verdict = .done ↔
      ∀ before, before <+: is → 0 ≤ depth d before ∧ depth d before ≤ 15) ∧
    ((m.executeAll is).verdict = .done → m.CarriedOutUpTo is is .done) ∧
    ((m.executeAll is).verdict ≠ .done → ∃ before i rest e, is = before ++ i :: rest ∧
      (∀ l, l <+: before → 0 ≤ depth d l ∧ depth d l ≤ 15) ∧
      ¬ (0 ≤ depth d (before ++ [i]) ∧ depth d (before ++ [i]) ≤ 15) ∧
      RefusedWith (m.after (before.map .execute)).pc i e ∧
      m.CarriedOutUpTo is before (.failed e)) ∧
    ∀ {allowed' : Operation → Prop} {n : Machine}, Reachable allowed' n →
      n.stack.pointer = m.stack.pointer →
      (n.carriedOutAll is).map Prod.snd = (m.carriedOutAll is).map Prod.snd := by
  intro d
  have hm := h.bounded
  have hall (hnested : Nested d is) : m.CarriedOutUpTo is is .done :=
    carriedOutUpTo_of_nested hm his hnested
  have hstop (hnot : ¬ Nested d is) : ∃ before i rest e, is = before ++ i :: rest ∧
      Nested d before ∧ ¬ IsDepth (depth d (before ++ [i])) ∧
      RefusedWith (m.after (before.map .execute)).pc i e ∧
      m.CarriedOutUpTo is before (.failed e) := by
    obtain ⟨before, i, rest, rfl, hbefore, hi⟩ :=
      Instruction.exists_first_not_isDepth hm.isDepth hnot
    obtain ⟨e, he, hupTo⟩ := exists_carriedOutUpTo_of_not_isDepth hm his hbefore hi
    exact ⟨before, i, rest, e, rfl, hbefore, hi, he, hupTo⟩
  have hiff : (m.executeAll is).verdict = .done ↔ Nested d is := by
    constructor
    · intro hdone
      by_contra hnot
      obtain ⟨before, i, rest, e, -, -, -, -, hupTo⟩ := hstop hnot
      rw [hupTo.executeAll_eq] at hdone
      cases hdone
    · intro hnested
      rw [(hall hnested).executeAll_eq]
  refine ⟨hiff, fun hdone => hall (hiff.1 hdone), fun hnot => hstop (mt hiff.2 hnot), ?_⟩
  intro allowed' n hn hpointer
  have hd : n.callDepth = d := by rw [callDepth, hpointer]
  by_cases hnested : Nested d is
  · rw [(hall hnested).carriedOut_eq]
    exact (carriedOutUpTo_of_nested hn.bounded his (hd ▸ hnested)).carriedOut_eq
  · obtain ⟨before, i, rest, e, rfl, hbefore, hi, -, hupTo⟩ := hstop hnested
    obtain ⟨e', -, hupTo'⟩ :=
      exists_carriedOutUpTo_of_not_isDepth hn.bounded his (hd ▸ hbefore) (hd ▸ hi)
    rw [hupTo.carriedOut_eq, hupTo'.carriedOut_eq]

/-- A wait for a key and a jump, which hold nothing back, and then a return without a call. -/
theorem executeAll_unmatched_return :
    ∃ m events, Machine.new #[] {} (Vector.replicate 8 0) = .ok (m, events) ∧
      let o := m.executeAll [.awaitKey 5, .jump 0x300, .ret, .setConst 0 1]
      o.verdict = .failed (.stackUnderflow 0x300) ∧
        o.machine = m.after [.execute (.awaitKey 5), .execute (.jump 0x300)] := by
  have hsplit (before rest : List Instruction)
      (heq : [.awaitKey 5, .jump 0x300, .ret, .setConst 0 1] = before ++ .ret :: rest) :
      before = [.awaitKey 5, .jump 0x300] := by
    rcases before with _ | ⟨a, _ | ⟨b, _ | ⟨c, _ | ⟨d, before⟩⟩⟩⟩ <;> simp_all
  obtain ⟨m, events, hnew⟩ := exists_new #[] {} (Vector.replicate 8 0) (by decide) (by decide)
  refine ⟨m, events, hnew, ?_⟩
  intro o
  have hpointer : m.stack.pointer = 0 := by
    obtain ⟨-, -, rfl, -⟩ := new_eq_ok_iff.1 hnew
    rfl
  have hm : Reachable (fun _ => True) m := .new hnew
  have his : ∀ i ∈ [Instruction.awaitKey 5, .jump 0x300, .ret, .setConst 0 1], i.InRange := by
    decide
  obtain ⟨hiff, -, hstop, -⟩ := executeAll_done_iff_nested hm his
  rw [hpointer] at hiff hstop
  have hnot : o.verdict ≠ .done := by
    intro hdone
    have hret := hiff.1 hdone [.awaitKey 5, .jump 0x300, .ret] ⟨[.setConst 0 1], rfl⟩
    exact absurd hret (by decide)
  obtain ⟨before, i, rest, e, heq, -, -, he, hupTo⟩ := hstop hnot
  -- of the whole list only the return can be refused
  rcases he with ⟨⟨target, rfl⟩, -⟩ | ⟨rfl, rfl⟩
  · have hmem : Instruction.call target ∈ before ++ .call target :: rest := by simp
    rw [← heq] at hmem
    simp at hmem
  · obtain rfl := hsplit before rest heq
    rw [show o = _ from hupTo.executeAll_eq]
    exact ⟨rfl, rfl⟩

end Machine

end Chip8
