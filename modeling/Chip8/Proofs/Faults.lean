import Chip8.Proofs.Footprint
import Chip8.Proofs.Runs

/-! # Faults

    An instruction built by hand may name a register that does not exist, and that is the only way
    to a fault. Every instruction but one accesses the registers it names at once; `awaitKey` only
    keeps the number, so its fault comes later, with the press that ends the wait. No address, no
    counter and no height of a sprite leads to a fault, and neither do steps, releases and loads,
    because memory and screen have an answer for every number. -/

namespace Chip8

/-- The register for which an instruction asks for a key. -/
def Instruction.asks? : Instruction → Option UInt8
  | .awaitKey x => some x
  | _ => none

namespace Machine

/-- What an operation does to the wait for a key, in order: `some x` where `awaitKey x` is carried
    out, and `none` where a key that exists is pressed. -/
def waitsBy (m : Machine) (op : Operation) : List (Option UInt8) :=
  match op with
  | .press key => if key.toNat < 16 then [none] else []
  | op => ((m.carriedOutBy op).filterMap fun p => p.2.asks?).map some

/-- What operations do to the wait for a key. -/
def waits (m : Machine) : List Operation → List (Option UInt8)
  | [] => []
  | op :: ops => m.waitsBy op ++ (m.perform op).machine.waits ops

/-- The register that waits after all that, if it was `before` in the beginning. -/
def lastWait (before : Option UInt8) (l : List (Option UInt8)) : Option UInt8 :=
  l.getLast?.getD before

variable {m n : Machine} {origin : UInt16} {i : Instruction} {x : UInt8}

/-! ### Faults of computations -/

theorem bind_eq_fault_iff {α β : Type} {c : Except Stop α} {f : α → Except Stop β} :
    (c >>= f) = .error .fault ↔ c = .error .fault ∨ ∃ a, c = .ok a ∧ f a = .error .fault := by
  cases c with
  | error s => simp [bind, Except.bind]
  | ok a => simp [ok_bind]

theorem pure_ne_fault {α : Type} (a : α) : (pure a : Except Stop α) ≠ .error .fault :=
  nofun

theorem throw_ne_fault {α : Type} (e : Error) (m : Machine) :
    (throw (.error e m) : Except Stop α) ≠ .error .fault :=
  nofun

theorem get_eq_fault_iff : m.get x = .error .fault ↔ 16 ≤ x.toNat := by
  rw [← Registers.get?_eq_none_iff m.registers x, get]
  cases m.registers.get? x <;> simp [checked]

theorem exists_get_eq_ok_iff : (∃ a, m.get x = .ok a) ↔ x.toNat < 16 := by
  rw [← Nat.not_le, ← Registers.get?_eq_none_iff m.registers x, get]
  cases m.registers.get? x <;> simp [checked]

theorem set_eq_fault_iff {v : UInt8} : m.set x v = .error .fault ↔ 16 ≤ x.toNat := by
  rw [← Registers.set?_eq_none_iff m.registers x v, set]
  cases m.registers.set? x v <;> simp [checked, bind, Except.bind, pure, Except.pure]

theorem setWithFlag_eq_fault_iff {v : UInt8} {on : Bool} :
    m.setWithFlag x v on = .error .fault ↔ 16 ≤ x.toNat := by
  rw [setWithFlag, bind_eq_fault_iff, set_eq_fault_iff]
  simp only [pure_ne_fault, and_false, exists_false, or_false]

theorem drawSprite_ne_fault {left top rows : UInt8} :
    m.drawSprite left top rows ≠ .error .fault := by
  obtain ⟨hit, screen, hdraw, -⟩ := m.drawSprite_eq left top rows
  rw [hdraw]
  exact nofun

theorem effect_ret_ne_fault (h : m.stack.pointer.toNat ≤ 15) :
    m.effect origin .ret ≠ .error .fault := by
  by_cases hp : m.stack.pointer = 0
  · simp [effect, hp, throw_ne_fault]
  · obtain ⟨a, -, hret⟩ := m.exists_effect_ret origin h hp
    simp [hret]

theorem effect_call_ne_fault {target : UInt16} :
    m.effect origin (.call target) ≠ .error .fault := by
  rw [effect]
  split
  · exact pure_ne_fault _
  · exact throw_ne_fault _ _

theorem store_eq_fault_iff : m.effect origin (.store x) = .error .fault ↔ 16 ≤ x.toNat := by
  rw [effect, bind_eq_fault_iff, Registers.upTo?]
  split <;> simp_all [checked, pure_ne_fault]

theorem load_eq_fault_iff : m.effect origin (.load x) = .error .fault ↔ 16 ≤ x.toNat := by
  rw [effect]
  simp only [Registers.overwrite?, Memory.length_slice]
  split <;> simp_all [checked, bind, Except.bind, pure, Except.pure]

/-! ### Faults of instructions -/

/-- A register that does not exist is the only reason for a fault, and only `awaitKey` may name
    one. -/
theorem effect_eq_fault_iff (origin : UInt16) (h : m.stack.pointer.toNat ≤ 15) :
    m.effect origin i = .error .fault ↔
      (∀ x, i ≠ .awaitKey x) ∧ ∃ x, .reg x ∈ i.operands ∧ 16 ≤ x.toNat := by
  cases i with
  | ret => simp [Instruction.operands, effect_ret_ne_fault h]
  | call => simp [Instruction.operands, effect_call_ne_fault]
  | store => simp [Instruction.operands, store_eq_fault_iff]
  | load => simp [Instruction.operands, load_eq_fault_iff]
  | skipEq | skipNe | move | or | and | xor | add | sub | subFrom | draw =>
    -- the second register is looked at only if the first exists
    simp only [effect, bind_eq_fault_iff, pure_ne_fault, get_eq_fault_iff, set_eq_fault_iff,
      setWithFlag_eq_fault_iff, drawSprite_ne_fault, exists_and_right, exists_get_eq_ok_iff]
    simp [Instruction.operands]
    omega
  | _ =>
    simp only [effect, bind_eq_fault_iff, pure_ne_fault, get_eq_fault_iff, set_eq_fault_iff,
      setWithFlag_eq_fault_iff, exists_and_right, exists_get_eq_ok_iff]
    simp [Instruction.operands]

theorem execute_eq_fault_iff (h : m.Bounded) :
    (m.execute i).verdict = .fault ↔
      (∀ x, i ≠ .awaitKey x) ∧ ∃ x, .reg x ∈ i.operands ∧ 16 ≤ x.toNat := by
  rw [← effect_eq_fault_iff m.pc h.pointer_le, execute]
  rcases m.effect m.pc i with (_ | _) | _ <;> simp

theorem press_eq_fault_iff {key : UInt8} :
    (m.press key).verdict = .fault ↔
      key.toNat < 16 ∧ ∃ x, m.keypad.awaited = some x ∧ 16 ≤ x.toNat := by
  have hpressed := pressed m key
  generalize m.press key = o at hpressed
  cases hpressed with
  | ignored hkey => simp [Nat.not_lt.2 hkey]
  | noticed hkey hawaited => simp [hawaited]
  | @resumed hkey x hawaited registers hset =>
    have hx : ¬ 16 ≤ x.toNat := by
      rw [← Registers.set?_eq_none_iff m.registers x key, hset]
      exact nofun
    simp [hawaited, hx]
  | fault hkey hawaited hset =>
    have hx := (Registers.set?_eq_none_iff _ _ _).1 hset
    simp [hkey, hawaited, hx]

theorem release_ne_fault (m : Machine) (key : UInt8) : (m.release key).verdict ≠ .fault := by
  have hreleased := released m key
  generalize m.release key = o at hreleased
  cases hreleased <;> exact nofun

theorem load_ne_fault (m : Machine) (rom : Array UInt8) : (m.load rom).verdict ≠ .fault := by
  have hloaded := loaded m rom
  generalize m.load rom = o at hloaded
  cases hloaded <;> exact nofun

/-! ### The wait for a key -/

theorem lastWait_append (before : Option UInt8) (l l' : List (Option UInt8)) :
    lastWait before (l ++ l') = lastWait (lastWait before l) l' := by
  rw [lastWait, lastWait, lastWait, List.getLast?_append]
  cases l'.getLast? <;> rfl

theorem awaited_of_effect {pc : UInt16} (h : { m with pc }.effect origin i = .ok n) :
    n.keypad.awaited = lastWait m.keypad.awaited (i.asks?.toList.map some) := by
  cases i with
  | awaitKey x =>
    cases h
    rfl
  | _ =>
    have hgraft := graft_of_effect (S := (· == .keypad)) (by simp [Instruction.writes]) h
    rw [← hgraft]
    rfl

/-- Instructions leave the wait for a key that the last of them asks for. -/
theorem keptByInstructions_awaited :
    KeptByInstructions fun m l n =>
      n.keypad.awaited =
        lastWait m.keypad.awaited ((l.filterMap fun p => p.2.asks?).map some) where
  refl _ := rfl
  trans hfirst hrest := by
    rw [hrest, hfirst, ← lastWait_append, List.filterMap_append, List.map_append]
  effect {m n pc origin i} heffect := by
    rw [awaited_of_effect heffect]
    cases hasks : i.asks? <;> simp [hasks]
  count m := by
    rw [keypad_count]
    rfl

theorem awaited_perform (h : m.Bounded) {op : Operation} (hok : (m.perform op).verdict ≠ .fault) :
    (m.perform op).machine.keypad.awaited = lastWait m.keypad.awaited (m.waitsBy op) := by
  cases op with
  | step | execute | executeAll =>
    exact keptByInstructions_awaited.perform rfl fun _ => stepped h
  | press key =>
    have hpressed := pressed m key
    rw [perform] at hok ⊢
    generalize m.press key = o at hpressed hok
    cases hpressed with
    | ignored hkey => simp [waitsBy, lastWait, Nat.not_lt.2 hkey]
    | noticed hkey | resumed hkey => simp [waitsBy, lastWait, hkey]
    | fault => exact absurd rfl hok
  | release key =>
    have hreleased := released m key
    rw [perform]
    generalize m.release key = o at hreleased
    cases hreleased <;> rfl
  | load rom =>
    have hloaded := loaded m rom
    rw [perform]
    generalize m.load rom = o at hloaded
    cases hloaded <;> rfl

theorem awaited_after (h : m.Bounded) {ops : List Operation} (hok : m.Completes ops) :
    (m.after ops).keypad.awaited = lastWait m.keypad.awaited (m.waits ops) := by
  induction ops generalizing m with
  | nil => rfl
  | cons op ops ih =>
    obtain ⟨hfirst, hrest⟩ := completes_cons_iff.1 hok
    rw [after_cons, ih (h.perform op) hrest, awaited_perform h hfirst, waits, lastWait_append]

/-- What faults, and when. From any program, after operations of which none faulted, and with any
    counter and any `I`: an instruction faults exactly if it names a register that does not exist
    and is not `awaitKey`; a press faults exactly if the key exists and the register that waits for
    it does not, which is the one of the last `awaitKey` since the last press of a key that exists.
    Steps, releases and loads never fault. -/
theorem fault_iff_register_missing {rom : Array UInt8} {settings : Settings} {entropy : ChaCha.Key}
    {events : List Event} (hnew : Machine.new rom settings entropy = .ok (m, events))
    {ops : List Operation} (hok : m.Completes ops) (pc index : UInt16) :
    let n := { m.after ops with pc, index }
    (∀ i, (n.execute i).verdict = .fault ↔
      (∀ x, i ≠ .awaitKey x) ∧ ∃ x, .reg x ∈ i.operands ∧ 15 < x.toNat) ∧
    (∀ i, (n.execute i).machine.step.verdict ≠ .fault) ∧
    (∀ key, (n.press key).verdict = .fault ↔
      key.toNat ≤ 15 ∧ ∃ x, n.keypad.awaited = some x ∧ 15 < x.toNat) ∧
    n.keypad.awaited = lastWait none (m.waits ops) ∧
    n.step.verdict ≠ .fault ∧
    (∀ key, (n.release key).verdict ≠ .fault) ∧ ∀ rom, (n.load rom).verdict ≠ .fault := by
  intro n
  have hm := (wellFormed_new hnew).toBounded
  have hn : n.Bounded := (hm.after ops).congr rfl rfl
  obtain ⟨-, -, -, hnone, -⟩ := start_of_new hnew
  refine ⟨fun i => execute_eq_fault_iff hn, fun i => ?_, fun key => ?_, ?_, hn.step_ne_fault,
    n.release_ne_fault, n.load_ne_fault⟩
  · exact (hn.of_executed (executed n i)).step_ne_fault
  · rw [press_eq_fault_iff, Nat.lt_succ_iff]
    rfl
  · rw [← hnone]
    exact awaited_after hm hok

/-- A wait for register 200, which a key that does not exist leaves open, far outside of memory. -/
theorem fault_iff_register_missing_wait :
    ∃ m events, Machine.new #[] {} (Vector.replicate 8 0) = .ok (m, events) ∧
      let ops : List Operation := [.execute (.awaitKey 200), .press 16]
      m.Completes ops ∧
      let n := { m.after ops with pc := 0xFFFF, index := 0xFFFF }
      (n.execute (.load 16)).verdict = .fault ∧ (n.execute (.draw 15 0 255)).verdict ≠ .fault ∧
      (n.execute (.awaitKey 255)).verdict ≠ .fault ∧ n.keypad.awaited = some 200 ∧
      (n.press 3).verdict = .fault ∧ n.step.verdict ≠ .fault := by
  obtain ⟨m, events, hnew⟩ : ∃ m events,
      Machine.new #[] {} (Vector.replicate 8 0) = .ok (m, events) :=
    ⟨_, _, new_eq_ok_iff.2 ⟨by decide, by decide, rfl, rfl⟩⟩
  refine ⟨m, events, hnew, ?_⟩
  intro ops
  have hok : m.Completes ops :=
    completes_cons_iff.2 ⟨nofun, completes_cons_iff.2 ⟨nofun, completes_nil _⟩⟩
  refine ⟨hok, ?_⟩
  intro n
  obtain ⟨hexecute, -, hpress, hawaited, hstep, -⟩ :=
    fault_iff_register_missing hnew hok 0xFFFF 0xFFFF
  have hwaits : n.keypad.awaited = some 200 := hawaited
  refine ⟨(hexecute _).2 ?_, fun hfault => ?_, fun hfault => ?_, hwaits,
    (hpress 3).2 ⟨by decide, 200, hwaits, by decide⟩, hstep⟩
  · exact ⟨nofun, 16, List.mem_singleton_self _, by decide⟩
  · obtain ⟨x, hx, hlt⟩ := ((hexecute _).1 hfault).2
    simp [Instruction.operands] at hx
    rcases hx with rfl | rfl <;> contradiction
  · exact ((hexecute _).1 hfault).1 255 rfl

end Machine

end Chip8
