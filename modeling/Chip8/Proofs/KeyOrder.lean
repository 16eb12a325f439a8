import Chip8.Proofs.Footprint
import Chip8.Proofs.Waiting

/-! # The order of keys and steps

    A key event may come before a step or after it. Which of the two it is can be told only if the
    step looks at the key: an instruction that skips on it, or one that begins to wait, which the
    next press would end. For all others the order does not matter, and neither does the order of
    events for two different keys.

    While the machine does not wait, a key event comes down to one flag of the keypad, its mark, and
    so the facts are about marks: a step of a marked machine is the marked step, and marks of
    different keys commute. -/

namespace Chip8

/-- The keypad with a key down or up. A key that does not exist leaves no mark. -/
def Keypad.mark (k : Keypad) (key : UInt8) (down : Bool) : Keypad :=
  { k with pressed := k.pressed.setIfInBounds key.toNat down }

/-- The key that an operation presses or releases, if it does. -/
def Operation.key? : Operation → Option UInt8
  | .press key | .release key => some key
  | .step | .execute _ | .executeAll _ | .load _ => none

/-- Whether an instruction looks at a key. -/
def Instruction.LooksAt (registers : Registers) (key : UInt8) : Instruction → Prop
  | .skipKeyDown x | .skipKeyUp x => registers.getLow x = key
  | _ => False

namespace Keypad

theorem mark_of_lt (k : Keypad) {key : UInt8} (hkey : key.toNat < 16) (down : Bool) :
    k.mark key down = { k with pressed := k.pressed.set key.toNat down } := by
  have hset : k.pressed.setIfInBounds key.toNat down = k.pressed.set key.toNat down := by
    ext i hi
    rw [Vector.getElem_setIfInBounds hi, Vector.getElem_set]
  rw [mark, hset]

theorem mark_of_le (k : Keypad) {key : UInt8} (hkey : 16 ≤ key.toNat) (down : Bool) :
    k.mark key down = k := by
  rw [mark, Vector.setIfInBounds_eq_of_size_le hkey]

theorem mark_comm (k : Keypad) {key key' : UInt8} (hne : key ≠ key') (down down' : Bool) :
    (k.mark key down).mark key' down' = (k.mark key' down').mark key down := by
  have hne' : key.toNat ≠ key'.toNat := fun heq => hne (UInt8.toNat_inj.1 heq)
  simp only [mark, Keypad.mk.injEq, and_true]
  ext i hi
  simp only [Vector.getElem_setIfInBounds]
  split_ifs with hfirst hsecond
  · exact absurd (hsecond.trans hfirst.symm) hne'
  all_goals rfl

theorem isDown_mark_of_ne (k : Keypad) {key other : UInt8} (hne : key ≠ other) (down : Bool) :
    (k.mark key down).isDown other = k.isDown other := by
  have hne' : key.toNat ≠ other.toNat := fun heq => hne (UInt8.toNat_inj.1 heq)
  simp only [isDown, mark, Vector.getElem?_setIfInBounds, if_neg hne']

end Keypad

namespace Machine

/-- The machine with a key down or up. -/
def mark (m : Machine) (key : UInt8) (down : Bool) : Machine :=
  { m with keypad := m.keypad.mark key down }

/-- Whether the next instruction looks at a key. -/
def LooksAt (m : Machine) (key : UInt8) : Prop :=
  ∃ i, m.nextInstruction? = some i ∧ i.LooksAt m.registers key

/-- Two operations can be done in either order: the machine ends up the same, and each of them ends
    alike and reports the same. -/
structure Swaps (m : Machine) (a b : Operation) : Prop where
  machine : m.after [a, b] = m.after [b, a]
  verdict_left : ((m.perform b).machine.perform a).verdict = (m.perform a).verdict
  verdict_right : ((m.perform a).machine.perform b).verdict = (m.perform b).verdict
  events_left : ((m.perform b).machine.perform a).events = (m.perform a).events
  events_right : ((m.perform a).machine.perform b).events = (m.perform b).events

variable {m : Machine} {i : Instruction} {key : UInt8}

/-! ### Steps of a marked machine -/

theorem skipIf_mark (m : Machine) (key : UInt8) (down c : Bool) :
    (m.mark key down).skipIf c = (m.skipIf c).mark key down := by
  cases c <;> rfl

theorem isKeyDown_mark_of_ne (m : Machine) {other : UInt8} (hne : other ≠ key) (down : Bool) :
    (m.mark key down).isKeyDown other = m.isKeyDown other :=
  m.keypad.isDown_mark_of_ne hne.symm down

theorem effect_mark_of_avoids {origin : UInt16} {after : Machine}
    (hi : i.Avoids (· == Part.keypad)) (h : m.effect origin i = .ok after) (down : Bool) :
    (m.mark key down).effect origin i = .ok (after.mark key down) := by
  have hwrites : ∀ p ∈ i.writes, (p == Part.keypad) = false :=
    fun p hp => hi p (List.mem_append_right i.reads hp)
  have hkept : m.keypad = after.keypad := by
    simpa [graft] using congrArg keypad (graft_of_effect hwrites h)
  have hgraft : (m.mark key down).effect origin i =
      .ok { after with keypad := m.keypad.mark key down } :=
    effect_graft (n := m.mark key down) hi h
  rw [hgraft, hkept]
  rfl

/-- An instruction that does not look at a key does the same with the key marked. -/
theorem effect_mark {origin : UInt16} {after : Machine} (hi : i.InRange)
    (hlooks : ¬ i.LooksAt m.registers key) (h : m.effect origin i = .ok after) (down : Bool) :
    (m.mark key down).effect origin i = .ok (after.mark key down) := by
  cases i with
  | awaitKey x =>
    cases h
    rfl
  | skipKeyDown x =>
    have hx : x.toNat < 16 := hi (.reg x) (List.mem_singleton_self _)
    have hne : m.register x ≠ key := hlooks
    have hdown := m.isKeyDown_mark_of_ne hne down
    rw [effect, get_eq m hx] at h
    cases h
    rw [effect, get_eq _ hx, ← skipIf_mark, ← isKeyDown, ← hdown]
    rfl
  | skipKeyUp x =>
    have hx : x.toNat < 16 := hi (.reg x) (List.mem_singleton_self _)
    have hne : m.register x ≠ key := hlooks
    have hdown := m.isKeyDown_mark_of_ne hne down
    rw [effect, get_eq m hx] at h
    cases h
    rw [effect, get_eq _ hx, ← skipIf_mark, ← isKeyDown, ← hdown]
    rfl
  | _ =>
    refine effect_mark_of_avoids ?_ h down
    simp [Instruction.Avoids, Instruction.reads, Instruction.writes]

theorem count_mark (m : Machine) (key : UInt8) (down : Bool) :
    (m.mark key down).count = (m.count.1.mark key down, m.count.2) := by
  dsimp only [count, mark]
  split <;> rfl

theorem refusal?_mark (m : Machine) (key : UInt8) (down : Bool) (origin : UInt16)
    (i : Instruction) : (m.mark key down).refusal? origin i = m.refusal? origin i := by
  cases i <;> rfl

theorem Stepped.mark {o : Outcome} (ho : Stepped m o) (hlooks : ¬ m.LooksAt key) (down : Bool) :
    Stepped (m.mark key down) { o with machine := o.machine.mark key down } := by
  cases ho with
  | waits hw => exact .waits hw
  | unknown hw hnext => exact .unknown hw hnext
  | @refused hw i e hnext he =>
    have he' := (m.refusal?_mark key down m.pc i).trans he
    exact Stepped.refused (m := m.mark key down) hw hnext he'
  | @ran hw i after hnext hfree heffect =>
    have hi : i.InRange := Instruction.inRange_of_decode? hnext
    have hfree' := (m.refusal?_mark key down m.pc i).trans hfree
    have heffect' := effect_mark (m := { m with pc := m.pc + 2 }) hi
      (fun hi' => hlooks ⟨i, hnext, hi'⟩) heffect down
    have hran := Stepped.ran (m := m.mark key down) hw hnext hfree' heffect'
    rwa [count_mark] at hran

/-- A step that does not look at a key is the same with the key marked, and leaves the mark. -/
theorem step_mark (h : m.Bounded) (hlooks : ¬ m.LooksAt key) (down : Bool) :
    (m.mark key down).step = { m.step with machine := m.step.machine.mark key down } := by
  have hmarked : (m.mark key down).Bounded := h.congr rfl rfl
  exact ((stepped h).mark hlooks down).step_eq hmarked

/-! ### Key events as marks -/

/-- A press marks the key, if the machine does not wait. -/
theorem press_eq_mark (key : UInt8) : ∃ v events, ∀ n : Machine, n.isWaiting = false →
    n.press key = ⟨v, n.mark key true, events⟩ := by
  by_cases hkey : key.toNat < 16
  · refine ⟨.done, [.note (.pressed key)], fun n hn => ?_⟩
    rw [isWaiting_eq_false_iff] at hn
    rw [press, Keypad.press, dif_pos hkey, hn, mark, Keypad.mark_of_lt _ hkey, hn]
  · refine ⟨.failed (.invalidKey key), [.note (.pressIgnored (.invalidKey key))], fun n _ => ?_⟩
    rw [press, Keypad.press, dif_neg hkey, mark, Keypad.mark_of_le _ (Nat.le_of_not_lt hkey)]

/-- A release marks the key. -/
theorem release_eq_mark (key : UInt8) : ∃ v events, ∀ n : Machine,
    n.release key = ⟨v, n.mark key false, events⟩ := by
  by_cases hkey : key.toNat < 16
  · refine ⟨.done, [.note (.released key)], fun n => ?_⟩
    rw [release, Keypad.release, dif_pos hkey, mark, Keypad.mark_of_lt _ hkey]
  · refine ⟨.failed (.invalidKey key), [.note (.releaseIgnored (.invalidKey key))], fun n => ?_⟩
    rw [release, Keypad.release, dif_neg hkey, mark, Keypad.mark_of_le _ (Nat.le_of_not_lt hkey)]

theorem exists_perform_eq_mark {op : Operation} (hop : op.key? = some key) :
    ∃ down v events, ∀ n : Machine, n.isWaiting = false →
      n.perform op = ⟨v, n.mark key down, events⟩ := by
  cases op with
  | press =>
    cases hop
    exact ⟨true, press_eq_mark key⟩
  | release =>
    cases hop
    obtain ⟨v, events, hrelease⟩ := release_eq_mark key
    exact ⟨false, v, events, fun n _ => hrelease n⟩
  | _ => cases hop

/-! ### Either order -/

/-- An operation that marks a key swaps with a step that does not look at the key. -/
theorem swaps_step_of_marks (h : m.Bounded) (hlooks : ¬ m.LooksAt key) {op : Operation}
    {down : Bool} {v : Verdict} {events : List Event}
    (hop : m.perform op = ⟨v, m.mark key down, events⟩)
    (hop' : m.step.machine.perform op = ⟨v, m.step.machine.mark key down, events⟩) :
    m.Swaps op .step := by
  have hstep := step_mark h hlooks down
  have hperform (n : Machine) : n.perform .step = n.step := rfl
  constructor <;> simp only [after_cons, after_nil, hperform, hop, hop', hstep]

/-- A step begins no wait if its instruction does not. -/
theorem isWaiting_step (h : m.Bounded) (hready : m.isWaiting = false)
    (hnext : ∀ x, m.nextInstruction? ≠ some (.awaitKey x)) : m.step.machine.isWaiting = false := by
  rw [isWaiting_eq_false_iff, Option.eq_none_iff_forall_ne_some]
  intro x hx
  rcases (awaited_step_iff h).1 hx with hx | hopens
  · cases (isWaiting_eq_false_iff.1 hready).symm.trans hx
  · exact hnext x hopens.next

theorem swaps_press_step (h : m.Bounded) (hready : m.isWaiting = false) (hlooks : ¬ m.LooksAt key)
    (hnext : ∀ x, m.nextInstruction? ≠ some (.awaitKey x)) : m.Swaps (.press key) .step := by
  obtain ⟨v, events, hpress⟩ := press_eq_mark key
  exact swaps_step_of_marks h hlooks (hpress m hready) (hpress _ (isWaiting_step h hready hnext))

theorem swaps_release_step (h : m.Bounded) (hlooks : ¬ m.LooksAt key) :
    m.Swaps (.release key) .step := by
  obtain ⟨v, events, hrelease⟩ := release_eq_mark key
  exact swaps_step_of_marks h hlooks (hrelease m) (hrelease _)

theorem swaps_keys (hready : m.isWaiting = false) {op op' : Operation} {key' : UInt8}
    (hop : op.key? = some key) (hop' : op'.key? = some key') (hne : key ≠ key') :
    m.Swaps op op' := by
  obtain ⟨down, v, events, hfirst⟩ := exists_perform_eq_mark hop
  obtain ⟨down', v', events', hsecond⟩ := exists_perform_eq_mark hop'
  have hcomm : (m.mark key down).mark key' down' = (m.mark key' down').mark key down :=
    congrArg (fun keypad => { m with keypad }) (m.keypad.mark_comm hne down down')
  have hready' (k : UInt8) (d : Bool) : (m.mark k d).isWaiting = false := hready
  constructor <;>
    simp only [after_cons, after_nil, hfirst, hsecond, hready, hready', hcomm]

/-- Key events and steps can be done in either order, but for a step that looks at the key. On a
    machine that does not wait, a press swaps with any step that neither skips on that key nor
    begins to wait, a release with any that does not skip on that key, and events for two different
    keys with each other. A step that fails is no exception. -/
theorem keys_swap_with_steps {allowed : Operation → Prop} (h : Reachable allowed m)
    (hready : m.isWaiting = false) :
    m.step.verdict ≠ .fault ∧
    (∀ key, (∀ x, m.nextInstruction? = some (.skipKeyDown x) ∨
        m.nextInstruction? = some (.skipKeyUp x) → m.register x ≠ key) →
      ((∀ x, m.nextInstruction? ≠ some (.awaitKey x)) → m.Swaps (.press key) .step) ∧
        m.Swaps (.release key) .step) ∧
    ∀ op op' key key', op.key? = some key → op'.key? = some key' → key ≠ key' →
      m.Swaps op op' := by
  have hm := h.bounded
  refine ⟨hm.step_ne_fault, fun key hregister => ?_,
    fun op op' key key' hop hop' hne => swaps_keys hready hop hop' hne⟩
  have hlooks : ¬ m.LooksAt key := by
    rintro ⟨i, hnext, hi⟩
    cases i with
    | skipKeyDown x => exact hregister x (Or.inl hnext) hi
    | skipKeyUp x => exact hregister x (Or.inr hnext) hi
    | _ => exact hi
  exact ⟨swaps_press_step hm hready hlooks, swaps_release_step hm hlooks⟩

/-- A program that begins with a skip on key 0: key 7 swaps with it. -/
theorem keys_swap_with_skip :
    ∃ m events, Machine.new #[0xE0, 0x9E] {} (Vector.replicate 8 0) = .ok (m, events) ∧
      m.Swaps (.press 7) .step ∧ m.Swaps (.release 7) .step ∧
        m.Swaps (.press 7) (.release 3) := by
  obtain ⟨m, events, hnew⟩ :=
    exists_new #[0xE0, 0x9E] {} (Vector.replicate 8 0) (by decide) (by decide)
  obtain ⟨-, -, -, hnone, hfetch⟩ := start_of_new hnew
  have hnext : m.nextInstruction? = some (.skipKeyDown 0) := by
    rw [nextInstruction?, hfetch]
    decide
  have hregister : m.register 0 = 0 := by
    obtain ⟨-, -, rfl, -⟩ := new_eq_ok_iff.1 hnew
    rfl
  have hm : Reachable (fun _ => True) m := .new hnew
  obtain ⟨-, hsteps, hkeys⟩ := keys_swap_with_steps hm (isWaiting_eq_false_iff.2 hnone)
  rw [hnext] at hsteps
  obtain ⟨hpress, hrelease⟩ := hsteps 7 (by simp [hregister])
  exact ⟨m, events, hnew, hpress (by simp), hrelease, hkeys _ _ 7 3 rfl rfl (by decide)⟩

end Machine

end Chip8
