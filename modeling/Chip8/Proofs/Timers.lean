import Chip8.Proofs.Runs

/-! # The timers

    Both timers go down by one at every step whose number is a multiple of the speed, and stay at
    zero. So a run that sets neither takes from each as many as there are multiples of the speed
    between the step counts before and after it, and the sound timer beeps once if that brings it to
    zero. Ticks add up along a run, which is how the run is cut into single operations. -/

namespace Chip8

/-- Whether an instruction sets a timer. -/
def Instruction.SetsTimer : Instruction → Prop
  | .setDelay _ | .setSound _ => True
  | _ => False

namespace Machine

/-- From `m` to `n` the timers ticked `q` times, with so many beeps. -/
structure Ticked (m : Machine) (q : Nat) (n : Machine) (beeps : Nat) : Prop where
  delay : n.delay.toNat = m.delay.toNat - q
  sound : n.sound.toNat = m.sound.toNat - q
  beeps : beeps = if 0 < m.sound.toNat ∧ m.sound.toNat ≤ q then 1 else 0

variable {m n p : Machine} {i : Instruction} {origin : UInt16}

/-! ### Ticks -/

theorem toNat_countDown (t : UInt8) : (countDown t).toNat = t.toNat - 1 := by
  rw [countDown]
  split
  · rename_i ht
    rw [ht]
    rfl
  · rename_i ht
    exact UInt8.toNat_sub_of_le _ _ (UInt8.le_iff_toNat_le.2
      (UInt8.lt_iff_toNat_lt.1 (UInt8.pos_iff_ne_zero.2 ht)))

theorem Ticked.of_eq (hdelay : n.delay = m.delay) (hsound : n.sound = m.sound) :
    m.Ticked 0 n 0 := by
  refine ⟨by rw [hdelay]; rfl, by rw [hsound]; rfl, ?_⟩
  rw [if_neg]
  omega

theorem Ticked.trans {q r b c : Nat} (h : m.Ticked q n b) (h' : n.Ticked r p c) :
    m.Ticked (q + r) p (b + c) := by
  obtain ⟨hdelay, hsound, rfl⟩ := h
  obtain ⟨hdelay', hsound', rfl⟩ := h'
  refine ⟨by omega, by omega, ?_⟩
  -- the sound timer passes zero in the first part, in the second one, or not at all
  rw [hsound]
  split <;> split <;> split <;> omega

theorem mod_speed_eq_zero_iff (steps : UInt64) (speed : UInt32) :
    steps % speed.toUInt64 = 0 ↔ steps.toNat % speed.toNat = 0 := by
  rw [← UInt64.toNat_inj, UInt64.toNat_mod, UInt32.toNat_toUInt64]
  rfl

theorem Ticked.tick (m : Machine) : m.Ticked 1 m.tick.1 (m.tick.2.count .beep) := by
  refine ⟨toNat_countDown _, toNat_countDown _, ?_⟩
  have hone : m.sound = 1 ↔ 0 < m.sound.toNat ∧ m.sound.toNat ≤ 1 := by
    rw [← UInt8.toNat_inj]
    simp only [UInt8.reduceToNat]
    omega
  rw [Machine.tick, if_congr hone rfl rfl]
  split <;> rfl

/-- Counting a step is a tick if the count has reached a multiple of the speed. -/
theorem Ticked.count (m : Machine) :
    m.Ticked (if m.count.1.steps.toNat % m.settings.speed.toNat = 0 then 1 else 0) m.count.1
      (m.count.2.count .beep) := by
  rw [steps_count]
  simp only [Machine.count, mod_speed_eq_zero_iff]
  split
  · obtain ⟨hdelay, hsound, hbeeps⟩ := Ticked.tick { m with steps := m.steps + 1 }
    exact ⟨hdelay, hsound, hbeeps⟩
  · exact .of_eq rfl rfl

/-! ### Instructions -/

/-- The delay timer after an instruction. -/
def delayAfter (m : Machine) : Instruction → UInt8
  | .setDelay x => m.register x
  | _ => m.delay

/-- The sound timer after an instruction. -/
def soundAfter (m : Machine) : Instruction → UInt8
  | .setSound x => m.register x
  | _ => m.sound

theorem eq_register_of_get {x v : UInt8} (h : m.get x = .ok v) : v = m.register x := by
  by_cases hx : x.toNat < 16
  · rw [get_eq m hx] at h
    exact (Except.ok.inj h).symm
  · rw [get, (m.registers.get?_eq_none_iff x).2 (Nat.le_of_not_lt hx)] at h
    cases h

/-- The timers after an instruction, wherever the counter was. -/
theorem timers_of_effect {pc : UInt16} (h : { m with pc }.effect origin i = .ok n) :
    n.delay = m.delayAfter i ∧ n.sound = m.soundAfter i := by
  cases i with
  | setDelay x =>
    obtain ⟨v, hv, hset⟩ := exists_of_bind_eq_ok h
    cases hset
    exact ⟨eq_register_of_get hv, rfl⟩
  | setSound x =>
    obtain ⟨v, hv, hset⟩ := exists_of_bind_eq_ok h
    cases hset
    exact ⟨rfl, eq_register_of_get hv⟩
  | _ => cases changed_of_effect h <;> exact ⟨rfl, rfl⟩

theorem timersAfter_of_not_setsTimer (m : Machine) (hi : ¬ i.SetsTimer) :
    m.delayAfter i = m.delay ∧ m.soundAfter i = m.sound := by
  cases i with
  | setDelay | setSound => exact absurd trivial hi
  | _ => exact ⟨rfl, rfl⟩

/-! ### Operations -/

theorem succ_div_sub_div (s k : Nat) :
    (s + 1) / k - s / k = if (s + 1) % k = 0 then 1 else 0 := by
  rw [Nat.succ_div, Nat.add_sub_cancel_left]
  exact if_congr (Nat.dvd_iff_mod_eq_zero) rfl rfl

/-- What counting does to the timers after an instruction of a step. -/
theorem Ticked.of_effect (h : { m with pc := m.pc + 2 }.effect m.pc i = .ok n) :
    n.Ticked (if n.count.1.steps.toNat % m.settings.speed.toNat = 0 then 1 else 0) n.count.1
      (n.count.2.count .beep) := by
  have hsettings : n.settings = { m with pc := m.pc + 2 }.settings := settings_effect h
  have hcount := Ticked.count n
  rwa [hsettings] at hcount

theorem settings_step (h : m.Bounded) : m.step.machine.settings = m.settings := by
  rcases (stepped h).cases with ⟨-, -, hmachine, -⟩ | ⟨i, after, -, -, -, heffect, hmachine, -⟩
  · rw [hmachine]
  · obtain ⟨steps, delay, sound, hcount⟩ := after.exists_count
    have hsettings : after.settings = { m with pc := m.pc + 2 }.settings := settings_effect heffect
    rw [hmachine, hcount]
    exact hsettings

theorem settings_perform (h : m.Bounded) {op : Operation} (hop : op.IsDriving) :
    (m.perform op).machine.settings = m.settings := by
  rcases hop.eq_step_or_isOutside with rfl | hout
  · exact settings_step h
  · obtain ⟨memory, registers, pc, keypad, hafter⟩ := m.exists_perform_outside hout
    rw [hafter]

/-- A step that sets no timer lets them tick if its count is a multiple of the speed. -/
theorem Ticked.step (h : m.Bounded) (hset : ∀ p ∈ m.carriedOutBy .step, ¬ p.2.SetsTimer)
    (hsteps : m.IsCounted .step → m.steps.toNat + 1 < 2 ^ 64) :
    m.Ticked ((m.steps.toNat + if m.IsCounted .step then 1 else 0) / m.settings.speed.toNat -
        m.steps.toNat / m.settings.speed.toNat)
      m.step.machine (m.step.events.count .beep) := by
  rcases (stepped h).cases with ⟨hidle, -, hmachine, hbeep⟩ |
    ⟨i, after, hcounted, -, hcarried, heffect, hmachine, hbeep⟩
  · rw [if_neg hidle, Nat.add_zero, Nat.sub_self, hbeep]
    exact .of_eq (by rw [hmachine]) (by rw [hmachine])
  · have hi : ¬ i.SetsTimer := hset (m, i) (by rw [hcarried]; exact List.mem_singleton_self _)
    obtain ⟨hdelay, hsound⟩ := timers_of_effect heffect
    obtain ⟨hdelay', hsound'⟩ := timersAfter_of_not_setsTimer m hi
    have hkept : m.Ticked 0 after 0 := .of_eq (hdelay.trans hdelay') (hsound.trans hsound')
    have hticked := hkept.trans (Ticked.of_effect heffect)
    have hcount : after.count.1.steps.toNat = m.steps.toNat + 1 := by
      have hsame : after.steps = m.steps := (steps_of_changed (changed_of_effect heffect)).trans rfl
      rw [steps_count, hsame, UInt64.toNat_add]
      exact Nat.mod_eq_of_lt (hsteps hcounted)
    rw [hcount, Nat.zero_add, Nat.zero_add] at hticked
    rw [if_pos hcounted, succ_div_sub_div, hbeep, hmachine]
    exact hticked

/-- An operation that sets no timer lets them tick once for each multiple of the speed that the step
    count reaches. -/
theorem Ticked.perform (h : m.Bounded) {op : Operation} (hop : op.IsDriving)
    (hset : ∀ p ∈ m.carriedOutBy op, ¬ p.2.SetsTimer)
    (hsteps : m.IsCounted op → m.steps.toNat + 1 < 2 ^ 64) :
    m.Ticked ((m.steps.toNat + if m.IsCounted op then 1 else 0) / m.settings.speed.toNat -
        m.steps.toNat / m.settings.speed.toNat)
      (m.perform op).machine ((m.perform op).events.count .beep) := by
  rcases hop.eq_step_or_isOutside with rfl | hout
  · exact .step h hset hsteps
  · have hne := Operation.ne_step_of_isOutside hout
    have hidle : ¬ m.IsCounted op := fun hcounted => hne hcounted.1
    obtain ⟨memory, registers, pc, keypad, hafter⟩ := m.exists_perform_outside hout
    rw [if_neg hidle, Nat.add_zero, Nat.sub_self, m.count_beep_of_ne_step hne, hafter]
    exact .of_eq rfl rfl

/-! ### Runs -/

theorem Reachable.of_done {allowed : Operation → Prop} (hm : Reachable allowed m) {op : Operation}
    (hop : allowed op) {events : List Event} (h : m.perform op = ⟨.done, n, events⟩) :
    Reachable allowed n := by
  have hn := Reachable.perform hm hop (by rw [h]; nofun)
  rwa [h] at hn

theorem toNat_steps_perform (h : m.Bounded) (op : Operation)
    (hsteps : m.IsCounted op → m.steps.toNat + 1 < 2 ^ 64) :
    (m.perform op).machine.steps.toNat = m.steps.toNat + if m.IsCounted op then 1 else 0 := by
  rw [steps_perform h op]
  split
  · rename_i hcounted
    rw [UInt64.toNat_add]
    exact Nat.mod_eq_of_lt (hsteps hcounted)
  · rw [UInt64.add_zero, Nat.add_zero]

theorem ticked_after (h : m.Bounded) {ops : List Operation} (hops : ∀ op ∈ ops, op.IsDriving)
    (hset : ∀ p ∈ m.carriedOut ops, ¬ p.2.SetsTimer)
    (hsteps : m.steps.toNat + m.countedSteps ops < 2 ^ 64) :
    (m.after ops).steps.toNat = m.steps.toNat + m.countedSteps ops ∧
      m.Ticked ((m.after ops).steps.toNat / m.settings.speed.toNat -
          m.steps.toNat / m.settings.speed.toNat) (m.after ops) (m.beeps ops) := by
  induction ops generalizing m with
  | nil =>
    rw [after_nil, Nat.sub_self]
    exact ⟨rfl, .of_eq rfl rfl⟩
  | cons op ops ih =>
    obtain ⟨hop, hops⟩ := List.forall_mem_cons.1 hops
    obtain ⟨hfirst, hrest⟩ := List.forall_mem_append.1 hset
    rw [countedSteps] at hsteps ⊢
    have hone : m.IsCounted op → m.steps.toNat + 1 < 2 ^ 64 := by
      intro hcounted
      rw [if_pos hcounted] at hsteps
      omega
    have hcount := toNat_steps_perform h op hone
    have hticked := Ticked.perform h hop hfirst hone
    rw [← hcount] at hticked
    obtain ⟨hsteps', hticked'⟩ := ih (h.perform op) hops hrest (by omega)
    rw [settings_perform h hop] at hticked'
    have hfirst_le := Nat.div_le_div_right (c := m.settings.speed.toNat)
      (show m.steps.toNat ≤ (m.perform op).machine.steps.toNat by omega)
    have hrest_le := Nat.div_le_div_right (c := m.settings.speed.toNat)
      (show (m.perform op).machine.steps.toNat ≤
        ((m.perform op).machine.after ops).steps.toNat by omega)
    -- the multiples reached by the first operation and by the rest are those reached by both
    have htotal := hticked.trans hticked'
    rw [Nat.add_comm, Nat.sub_add_sub_cancel hrest_le hfirst_le] at htotal
    rw [after_cons, beeps_cons]
    exact ⟨by omega, htotal⟩

/-- A step that finds an instruction which sets a timer carries it out. -/
theorem exists_step_of_setsTimer (h : m.Bounded) (hw : m.isWaiting = false)
    (hnext : m.nextInstruction? = some i) (hi : i.SetsTimer) :
    ∃ after : Machine, m.step.verdict = .done ∧ after.delay = m.delayAfter i ∧
      after.sound = m.soundAfter i ∧
      after.Ticked (if m.step.machine.steps.toNat % m.settings.speed.toNat = 0 then 1 else 0)
        m.step.machine (m.step.events.count .beep) := by
  have hfree : m.refusal? m.pc i = none := by
    cases i with
    | setDelay | setSound => rfl
    | _ => cases hi
  have hcounted := isCounted_step h hw hnext hfree
  rcases (stepped h).cases with ⟨hidle, -⟩ | ⟨j, after, -, hj, -, heffect, hmachine, hbeep⟩
  · exact absurd hcounted hidle
  · cases hnext.symm.trans hj
    obtain ⟨hdelay, hsound⟩ := timers_of_effect heffect
    refine ⟨after, hcounted.2.2, hdelay, hsound, ?_⟩
    rw [hmachine, hbeep]
    exact .of_effect heffect

/-- The timers in closed form. On any reachable machine, a run that sets neither timer takes from
    both the number of multiples of the speed among its step counts, and beeps once if that is when
    the sound timer runs out; its step count grows by its successful steps. A step that sets a timer
    leaves it at the value of the register, or one below if the new count is a multiple of the
    speed. -/
theorem timers_after {allowed : Operation → Prop} (h : Reachable allowed m) :
    (∀ ops : List Operation, (∀ op ∈ ops, op.IsDriving) →
      (∀ p ∈ m.carriedOut ops, ¬ p.2.SetsTimer) →
      m.steps.toNat + m.countedSteps ops < 2 ^ 64 →
      let n := m.after ops
      let q := n.steps.toNat / m.settings.speed.toNat - m.steps.toNat / m.settings.speed.toNat
      n.steps.toNat = m.steps.toNat + m.countedSteps ops ∧
      n.delay.toNat = m.delay.toNat - q ∧ n.sound.toNat = m.sound.toNat - q ∧
      m.beeps ops = if 0 < m.sound.toNat ∧ m.sound.toNat ≤ q then 1 else 0) ∧
    (∀ x, m.isWaiting = false → m.nextInstruction? = some (.setDelay x) →
      let n := m.step.machine
      m.step.verdict = .done ∧
      n.delay.toNat = (m.register x).toNat -
        if n.steps.toNat % m.settings.speed.toNat = 0 then 1 else 0) ∧
    (∀ x, m.isWaiting = false → m.nextInstruction? = some (.setSound x) →
      let n := m.step.machine
      m.step.verdict = .done ∧
      n.sound.toNat = (m.register x).toNat -
        (if n.steps.toNat % m.settings.speed.toNat = 0 then 1 else 0) ∧
      m.step.events.count .beep =
        if m.register x = 1 ∧ n.steps.toNat % m.settings.speed.toNat = 0 then 1 else 0) := by
  have hm := h.bounded
  refine ⟨?_, ?_, ?_⟩
  · intro ops hops hset hsteps n q
    obtain ⟨hcount, hdelay, hsound, hbeeps⟩ := ticked_after hm hops hset hsteps
    exact ⟨hcount, hdelay, hsound, hbeeps⟩
  · intro x hw hnext n
    obtain ⟨after, hdone, hvalue, -, hticked⟩ := exists_step_of_setsTimer hm hw hnext trivial
    have hvalue : after.delay = m.register x := hvalue
    exact ⟨hdone, hvalue ▸ hticked.delay⟩
  · intro x hw hnext n
    obtain ⟨after, hdone, -, hvalue, hticked⟩ := exists_step_of_setsTimer hm hw hnext trivial
    have hvalue : after.sound = m.register x := hvalue
    have hone : m.register x = 1 ↔ (m.register x).toNat = 1 := UInt8.toNat_inj.symm
    refine ⟨hdone, hvalue ▸ hticked.sound, ?_⟩
    rw [hticked.beeps, hvalue]
    refine if_congr ?_ rfl rfl
    rw [hone, show m.step.machine = n from rfl]
    split <;> omega

/-- Arming the sound timer from outside. -/
theorem perform_arm (m : Machine) (v : UInt8) :
    m.perform (.executeAll [.setConst 0 v, .setSound 0]) =
      ⟨.done, { m with registers := m.registers.setLow 0 v, sound := v }, []⟩ := by
  have hset : m.execute (.setConst 0 v) =
      ⟨.done, { m with registers := m.registers.setLow 0 v }, []⟩ := by
    rw [execute, effect, set_eq m v (by decide)]
    rfl
  have harm : execute { m with registers := m.registers.setLow 0 v } (.setSound 0) =
      ⟨.done, { m with registers := m.registers.setLow 0 v, sound := v }, []⟩ := by
    rw [execute, effect, get_eq _ (by decide)]
    simp only [register, Registers.getLow, Registers.setLow, Vector.getElem_set_self]
    rfl
  rw [perform, executeAll_cons, hset, if_pos rfl, executeAll_singleton, harm]
  rfl

/-- A machine at speed 1 whose sound timer was set to 1 from outside; its program jumps in place. -/
theorem timers_after_jump :
    ∃ m : Machine, Reachable (fun _ => True) m ∧ m.sound = 1 ∧
      (m.after [.step]).steps.toNat = 1 ∧ (m.after [.step]).sound.toNat = 0 ∧
      m.beeps [.step] = 1 := by
  obtain ⟨b, events, hnew⟩ : ∃ b events,
      Machine.new #[0x12, 0x00] { speed := 1 } (Vector.replicate 8 0) = .ok (b, events) :=
    ⟨_, _, new_eq_ok_iff.2 ⟨by decide, by decide, rfl, rfl⟩⟩
  have hm : Reachable (fun _ => True)
      { b with registers := b.registers.setLow 0 1, sound := 1 } :=
    (Reachable.new hnew).of_done trivial (b.perform_arm 1)
  generalize b.registers.setLow 0 1 = registers at hm
  obtain ⟨hsettings, hsteps, -, hawaited, hfetch⟩ := start_of_new hnew
  have hw : Machine.isWaiting { b with registers, sound := 1 } = false := by
    rw [isWaiting, Keypad.isWaiting, hawaited]
    rfl
  have hnext : nextInstruction? { b with registers, sound := 1 } = some (.jump 0x200) := by
    show Instruction.decode? b.fetch = _
    rw [hfetch]
    decide
  generalize hn : ({ b with registers, sound := 1 } : Machine) = n at hm hw hnext
  have hcounted := isCounted_step hm.bounded hw hnext rfl
  have hzero : n.steps.toNat = 0 := by rw [← hn, hsteps]; rfl
  have hspeed : n.settings.speed.toNat = 1 := by rw [← hn, hsettings]; rfl
  have hone : n.sound = 1 := by rw [← hn]
  have hall : n.countedSteps [.step] = 1 := by
    rw [countedSteps, if_pos hcounted, countedSteps]
  obtain ⟨hsteps', -, hsound, hbeeps⟩ := (timers_after hm).1 [.step] (by simp [Operation.IsDriving])
    (by simp [carriedOut, carriedOutBy, hcounted, hnext, Instruction.SetsTimer])
    (by rw [hzero, hall]; decide)
  rw [hzero, hall, Nat.zero_add] at hsteps'
  rw [hsteps', hspeed, hzero, hone] at hsound hbeeps
  exact ⟨n, hm, hone, hsteps', hsound, hbeeps⟩

end Machine

end Chip8
