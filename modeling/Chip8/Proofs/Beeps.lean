import Chip8.Proofs.Timers
import Chip8.Speaker

/-! # Where beeps come from

    Setting the sound timer to something arms it; an armed timer beeps when it runs out, unless it
    is set again before, which overrides it. So of all the times that it was armed, each has led to
    a beep, was overridden, or is the one that is still armed. One instruction keeps this account,
    and so does any number of ticks; a run is made of the two. -/

namespace Chip8

namespace Machine

/-- Whether an instruction arms the sound timer: it sets it to something. -/
def arms : Machine × Instruction → Bool
  | (m, .setSound x) => m.register x != 0
  | _ => false

/-- Whether an instruction overrides the sound timer: it sets it while it is armed. -/
def overrides : Machine × Instruction → Bool
  | (m, .setSound _) => m.sound != 0
  | _ => false

/-- One if the sound timer is armed. -/
def armed (m : Machine) : Nat := if 0 < m.sound.toNat then 1 else 0

/-- The account from `m` to `n`: what was armed before or in between has led to one of the beeps,
    was overridden, or is armed after. -/
def Accounted (m : Machine) (carried : List (Machine × Instruction)) (beeps : Nat) (n : Machine) :
    Prop :=
  m.armed + carried.countP arms = beeps + carried.countP overrides + n.armed

variable {m n p : Machine} {i : Instruction} {origin : UInt16}

theorem armed_of_sound (h : n.sound = m.sound) : n.armed = m.armed := by
  rw [armed, armed, h]

/-! ### Instructions and ticks -/

theorem Accounted.of_sound (h : n.sound = m.sound) : Accounted m [] 0 n := by
  rw [Accounted, armed_of_sound h]
  simp

theorem Accounted.trans {l l' : List (Machine × Instruction)} {b b' : Nat} (h : Accounted m l b n)
    (h' : Accounted n l' b' p) : Accounted m (l ++ l') (b + b') p := by
  simp only [Accounted, List.countP_append] at h h' ⊢
  omega

/-- However many ticks there are, the timer beeps if it was armed and is no more. -/
theorem Ticked.accounted {q b : Nat} (h : m.Ticked q n b) : Accounted m [] b n := by
  obtain ⟨-, hsound, rfl⟩ := h
  simp only [Accounted, armed, List.countP_nil, hsound]
  split <;> split <;> split <;> omega

theorem Ticked.beeps_le {q b : Nat} (h : m.Ticked q n b) : b ≤ 1 := by
  rw [h.beeps]
  split <;> omega

theorem Accounted.of_effect {pc : UInt16} (h : { m with pc }.effect origin i = .ok n) :
    Accounted m [(m, i)] 0 n := by
  obtain ⟨-, hsound⟩ := timers_of_effect h
  have hzero : ∀ v : UInt8, v ≠ 0 ↔ 0 < v.toNat := fun v => by
    rw [← UInt8.pos_iff_ne_zero, UInt8.lt_iff_toNat_lt]
    rfl
  cases i with
  | setSound x =>
    have hsound : n.sound = m.register x := hsound
    simp only [Accounted, armed, List.countP_singleton, arms, overrides, hsound, bne_iff_ne, hzero]
    omega
  | _ => exact Accounted.of_sound hsound

/-! ### Runs -/

theorem Accounted.executeAll (m : Machine) (is : List Instruction) :
    Accounted m (m.carriedOutAll is) 0 (m.executeAll is).machine := by
  induction is generalizing m with
  | nil => exact .of_sound rfl
  | cons i is ih =>
    have hexecuted := executed m i
    rw [carriedOutAll, executeAll_cons]
    generalize m.execute i = o at hexecuted
    cases hexecuted with
    | refused | fault => exact .of_sound rfl
    | done heffect => exact (Accounted.of_effect heffect).trans (ih _)

theorem Accounted.step (h : m.Bounded) :
    Accounted m (m.carriedOutBy .step) (m.step.events.count .beep) m.step.machine := by
  rcases (stepped h).cases with ⟨-, hcarried, hmachine, hbeep⟩ |
    ⟨i, after, -, -, hcarried, heffect, hmachine, hbeep⟩
  · rw [hcarried, hmachine, hbeep]
    exact .of_sound rfl
  · have hcounted := (Accounted.of_effect heffect).trans (Ticked.of_effect heffect).accounted
    rwa [List.append_nil, Nat.zero_add, ← hmachine, ← hbeep, ← hcarried] at hcounted

theorem Accounted.perform (h : m.Bounded) (op : Operation) :
    Accounted m (m.carriedOutBy op) ((m.perform op).events.count .beep) (m.perform op).machine := by
  cases hout : op.isOutside with
  | true =>
    obtain ⟨memory, registers, pc, keypad, hafter⟩ := m.exists_perform_outside hout
    have hcarried : m.carriedOutBy op = [] := by
      cases op with
      | press | release | load => rfl
      | step | execute | executeAll => cases hout
    rw [hafter, hcarried, m.count_beep_of_ne_step (Operation.ne_step_of_isOutside hout)]
    exact .of_sound rfl
  | false =>
    cases op with
    | step => exact .step h
    | execute i =>
      rw [m.count_beep_of_ne_step (show Operation.execute i ≠ .step by simp), Machine.perform,
        ← executeAll_singleton]
      exact .executeAll m [i]
    | executeAll is =>
      rw [m.count_beep_of_ne_step (show Operation.executeAll is ≠ .step by simp)]
      exact .executeAll m is
    | press | release | load => cases hout

theorem Accounted.after (h : m.Bounded) (ops : List Operation) :
    Accounted m (m.carriedOut ops) (m.beeps ops) (m.after ops) := by
  induction ops generalizing m with
  | nil => exact .of_sound rfl
  | cons op ops ih =>
    rw [carriedOut, beeps_cons, after_cons]
    exact (Accounted.perform h op).trans (ih (h.perform op))

/-! ### Beeps -/

theorem count_beep_step_le (h : m.Bounded) : m.step.events.count .beep ≤ 1 := by
  rcases (stepped h).cases with ⟨-, -, -, hbeep⟩ | ⟨i, after, -, -, -, heffect, -, hbeep⟩
  · rw [hbeep]
    exact Nat.zero_le 1
  · rw [hbeep]
    exact (Ticked.of_effect heffect).beeps_le

/-- A speaker that is one further after a beep hears every beep once. -/
theorem hear_eq_add {f : Nat → Speaker} (hf : ∀ k, (f k).beep.1 = f (k + 1)) (k : Nat)
    (es : List Event) : ((f k).hear es).1 = f (k + es.count .beep) := by
  induction es generalizing k with
  | nil => rfl
  | cons e es ih =>
    cases e with
    | note n =>
      rw [List.count_cons_of_ne (by simp)]
      exact ih k
    | beep =>
      rw [List.count_cons_self, Nat.add_comm _ 1, ← Nat.add_assoc, ← ih, ← hf]
      rfl

theorem hear_counter (k : Nat) (es : List Event) :
    ((Speaker.counter k).hear es).1 = .counter (k + es.count .beep) :=
  hear_eq_add (fun _ => rfl) k es

theorem hear_channel (k : Nat) (es : List Event) :
    ((Speaker.channel k).hear es).1 = .channel (k + es.count .beep) :=
  hear_eq_add (fun _ => rfl) k es

/-- No beep is lost and none comes twice. From any program, after any operations, the sound timer
    was armed as often as it has beeped, was overridden, or is still armed. A speaker hears just
    these beeps; a step makes at most one of them, and nothing else makes any. -/
theorem arms_eq_beeps_add_overrides {rom : Array UInt8} {settings : Settings}
    {entropy : ChaCha.Key} {events : List Event}
    (hnew : Machine.new rom settings entropy = .ok (m, events)) (ops : List Operation) :
    let n := m.after ops
    (m.carriedOut ops).countP arms =
        m.beeps ops + (m.carriedOut ops).countP overrides +
          (if 0 < n.sound.toNat then 1 else 0) ∧
      ((Speaker.counter 0).hear (m.events ops)).1 = .counter (m.beeps ops) ∧
      n.step.events.count .beep ≤ 1 ∧
      ∀ op, op ≠ .step → (n.perform op).events.count .beep = 0 := by
  intro n
  have hm := (wellFormed_new hnew).toBounded
  obtain ⟨-, -, hsound, -⟩ := start_of_new hnew
  have hstart : m.armed = 0 := by
    rw [armed, hsound]
    rfl
  have haccount := Accounted.after hm ops
  rw [Accounted, hstart, Nat.zero_add] at haccount
  refine ⟨haccount, ?_, count_beep_step_le (hm.after ops), fun op => n.count_beep_of_ne_step⟩
  rw [hear_counter, Nat.zero_add]
  rfl

/-- A new machine whose sound timer is armed from outside. -/
theorem arms_eq_one :
    ∃ m events, Machine.new #[] {} (Vector.replicate 8 0) = .ok (m, events) ∧
      let ops : List Operation := [.executeAll [.setConst 0 2, .setSound 0]]
      m.beeps ops = 0 ∧
        (m.carriedOut ops).countP arms = (m.carriedOut ops).countP overrides + 1 := by
  obtain ⟨m, events, hnew⟩ : ∃ m events,
      Machine.new #[] {} (Vector.replicate 8 0) = .ok (m, events) :=
    ⟨_, _, new_eq_ok_iff.2 ⟨by decide, by decide, rfl, rfl⟩⟩
  refine ⟨m, events, hnew, ?_⟩
  intro ops
  have hsilent : m.beeps ops = 0 := by
    rw [beeps_cons, perform_arm]
    rfl
  have hsound : (m.after ops).sound = 2 := by
    rw [after_cons, perform_arm]
    rfl
  obtain ⟨hcount, -⟩ := arms_eq_beeps_add_overrides hnew ops
  rw [hsilent, hsound, Nat.zero_add] at hcount
  exact ⟨hsilent, hcount⟩

end Machine

end Chip8
