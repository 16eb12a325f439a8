import Chip8.Proofs.Footprint
import Chip8.Proofs.Runs

/-! # Random bytes

    Which random byte an instruction gets depends on nothing but the seed and the number of draws
    before it. The generator moves on by one for every `random` that is carried out, whatever its
    mask, and for nothing else: not for other instructions, nor for steps that fail or wait, keys or
    loads. So the draws of a run, numbered in the order of the program, read the stream of the seed
    from its start and leave nothing out. -/

namespace Chip8

namespace Generator

/-- A generator after so many draws. -/
def advance (g : Generator) (n : Nat) : Generator := Nat.repeat (fun g => g.next.2) n g

/-- Byte `j` of a seed: what its generator gives after `j` draws. -/
def stream (seed : UInt64) (j : Nat) : UInt8 := ((ofSeed seed).advance j).next.1

theorem advance_succ (g : Generator) (n : Nat) : g.advance (n + 1) = (g.advance n).next.2 := rfl

theorem advance_add (g : Generator) (a b : Nat) : g.advance (a + b) = (g.advance a).advance b := by
  induction b with
  | zero => rfl
  | succ b ih => rw [← Nat.add_assoc, advance_succ, ih, ← advance_succ]

end Generator

/-- A draw: the machine that executes a `random`, and its operands. -/
structure Draw where
  machine : Machine
  x : UInt8
  mask : UInt8

namespace Machine

/-- The draw that an instruction makes. -/
def drawOf? : Machine × Instruction → Option Draw
  | (m, .random x mask) => some ⟨m, x, mask⟩
  | _ => none

/-- The draws among instructions that are carried out, in their order. -/
def drawsAmong (l : List (Machine × Instruction)) : List Draw := l.filterMap drawOf?

/-- The draws of a run. -/
def draws (m : Machine) (ops : List Operation) : List Draw := drawsAmong (m.carriedOut ops)

/-- From `m` to `n` the generator has moved on once for every draw, and the draws have found it in
    the positions that follow one another. -/
structure Drawn (m : Machine) (l : List (Machine × Instruction)) (n : Machine) : Prop where
  generator : n.generator = m.generator.advance (drawsAmong l).length
  position : ∀ j d, (drawsAmong l)[j]? = some d → d.machine.generator = m.generator.advance j

variable {m n p after : Machine} {i : Instruction} {origin : UInt16}

/-! ### One draw -/

/-- What a draw does to the registers and the generator. -/
theorem effect_random {pc : UInt16} {x mask : UInt8}
    (h : { m with pc }.effect origin (.random x mask) = .ok after) :
    x.toNat < 16 ∧ after.registers = m.registers.setLow x (m.generator.next.1 &&& mask) ∧
      after.generator = m.generator.next.2 := by
  obtain ⟨registers, hset, hafter⟩ := exists_of_bind_eq_ok h
  cases hafter
  have hset := eq_some_of_checked hset
  by_cases hx : x.toNat < 16
  · rw [Registers.set?_eq_setLow _ _ hx] at hset
    exact ⟨hx, (Option.some.inj hset).symm, rfl⟩
  · rw [(Registers.set?_eq_none_iff _ _ _).2 (Nat.le_of_not_lt hx)] at hset
    cases hset

theorem execute_random (m : Machine) {x : UInt8} (mask : UInt8) (hx : x.toNat < 16) :
    m.execute (.random x mask) =
      ⟨.done, { m with
        registers := m.registers.setLow x (m.generator.next.1 &&& mask)
        generator := m.generator.next.2 }, []⟩ := by
  have heffect : m.effect m.pc (.random x mask) = .ok _ :=
    set_eq { m with generator := m.generator.next.2 } (m.generator.next.1 &&& mask) hx
  rw [execute, heffect]
  rfl

theorem CarriesOut.random {x mask : UInt8} (h : m.CarriesOut (.random x mask) after) :
    x.toNat < 16 ∧ after.registers = m.registers.setLow x (m.generator.next.1 &&& mask) ∧
      after.generator = m.generator.next.2 := by
  obtain ⟨n, pc, origin, heffect, steps, delay, sound, rfl⟩ := h.exists_effect
  obtain ⟨hx, hregisters, hgenerator⟩ := effect_random heffect
  exact ⟨hx, hregisters, hgenerator⟩

/-! ### Instructions of a run -/

theorem exists_of_mem_carriedOutAll {is : List Instruction} (h : (n, i) ∈ m.carriedOutAll is) :
    ∃ after, n.CarriesOut i after := by
  induction is generalizing m with
  | nil => cases h
  | cons j is ih =>
    rw [carriedOutAll] at h
    split at h
    · rename_i hdone
      rcases List.mem_cons.1 h with heq | hrest
      · cases heq
        exact ⟨_, .execute hdone⟩
      · exact ih hrest
    · cases h

theorem exists_of_mem_carriedOutBy {op : Operation} (h : (n, i) ∈ m.carriedOutBy op) :
    ∃ after, n.CarriesOut i after := by
  cases op with
  | step =>
    rw [carriedOutBy] at h
    split at h
    · rename_i hcounted
      obtain ⟨j, hj, heq⟩ := List.mem_map.1 h
      cases heq
      exact ⟨_, .step hcounted (Option.mem_toList.1 hj)⟩
    · cases h
  | execute | executeAll => exact exists_of_mem_carriedOutAll h
  | press | release | load => cases h

/-- Every instruction that a run carries out is carried out one way or the other. -/
theorem exists_of_mem_carriedOut {ops : List Operation} (h : (n, i) ∈ m.carriedOut ops) :
    ∃ after, n.CarriesOut i after := by
  induction ops generalizing m with
  | nil => cases h
  | cons op ops ih =>
    rcases List.mem_append.1 h with hfirst | hrest
    · exact exists_of_mem_carriedOutBy hfirst
    · exact ih hrest

theorem mem_of_mem_drawsAmong {l : List (Machine × Instruction)} {d : Draw}
    (h : d ∈ drawsAmong l) : (d.machine, .random d.x d.mask) ∈ l := by
  obtain ⟨⟨n, i⟩, hmem, hd⟩ := List.mem_filterMap.1 h
  cases i with
  | random x mask =>
    cases hd
    exact hmem
  | _ => cases hd

/-! ### Positions -/

theorem Drawn.trans {l l' : List (Machine × Instruction)} (h : m.Drawn l n) (h' : n.Drawn l' p) :
    m.Drawn (l ++ l') p := by
  have happend : drawsAmong (l ++ l') = drawsAmong l ++ drawsAmong l' := List.filterMap_append
  constructor
  · rw [happend, List.length_append, Generator.advance_add, ← h.generator, h'.generator]
  · intro j d hd
    rw [happend] at hd
    rcases Nat.lt_or_ge j (drawsAmong l).length with hj | hj
    · rw [List.getElem?_append_left hj] at hd
      exact h.position j d hd
    · rw [List.getElem?_append_right hj] at hd
      rw [h'.position _ d hd, h.generator, ← Generator.advance_add, Nat.add_sub_cancel' hj]

theorem drawn_of_eq {l : List (Machine × Instruction)} (hl : drawsAmong l = [])
    (h : n.generator = m.generator) : m.Drawn l n := by
  constructor
  · rw [hl, h]
    rfl
  · intro j d hd
    rw [hl] at hd
    cases hd

theorem Drawn.of_effect {pc : UInt16} (h : { m with pc }.effect origin i = .ok n) :
    m.Drawn [(m, i)] n := by
  cases i with
  | random x mask =>
    obtain ⟨-, -, hgenerator⟩ := effect_random h
    have hone : drawsAmong [(m, .random x mask)] = [⟨m, x, mask⟩] := rfl
    refine ⟨hgenerator, fun j d hd => ?_⟩
    rw [hone] at hd
    cases j with
    | zero =>
      cases hd
      rfl
    | succ j => cases hd
  | _ =>
    have hgraft := graft_of_effect (S := (· == .generator)) (by simp [Instruction.writes]) h
    have hgenerator : n.generator = m.generator := by
      rw [← hgraft]
      rfl
    exact drawn_of_eq rfl hgenerator

theorem keptByRuns_drawn : KeptByRuns Drawn where
  refl _ := drawn_of_eq rfl rfl
  trans := Drawn.trans
  effect := Drawn.of_effect
  count m := drawn_of_eq rfl m.generator_count
  outside m op hop := by
    obtain ⟨memory, registers, pc, keypad, hafter⟩ := m.exists_perform_outside hop
    rw [hafter]
    exact drawn_of_eq rfl rfl

/-- A run from a new machine draws from the start of its seed's stream. -/
theorem draws_of_new {rom : Array UInt8} {settings : Settings} {entropy : ChaCha.Key}
    {events : List Event} (hnew : Machine.new rom settings entropy = .ok (m, events))
    {seed : UInt64} (hseed : settings.seed = some seed) (ops : List Operation) :
    (m.after ops).generator = (Generator.ofSeed seed).advance (m.draws ops).length ∧
      ∀ j d, (m.draws ops)[j]? = some d →
        d.machine.generator = (Generator.ofSeed seed).advance j := by
  have hm := (wellFormed_new hnew).toBounded
  have hstart : m.generator = Generator.ofSeed seed := by
    obtain ⟨-, -, rfl, -⟩ := new_eq_ok_iff.1 hnew
    simp only [blank, hseed]
  obtain ⟨hgenerator, hposition⟩ := keptByRuns_drawn.after hm ops
  rw [hstart] at hgenerator hposition
  exact ⟨hgenerator, hposition⟩

/-- Random bytes are used once each, in the order of the program. On a machine with a seed, after
    any operations, the generator has moved on as often as a `random` was carried out, and with each
    further operation it moves on as often as that carries one out. The draw with number `j` finds
    the generator at position `j`, however it is carried out, and leaves byte `j` of the seed in its
    register, masked, and all other registers alone. So of two machines with one seed the draws with
    the same number get the same byte, whatever else the machines do. -/
theorem draws_follow_stream {rom : Array UInt8} {settings : Settings} {entropy : ChaCha.Key}
    {events : List Event} (hnew : Machine.new rom settings entropy = .ok (m, events))
    {seed : UInt64} (hseed : settings.seed = some seed) (ops : List Operation) :
    (m.after ops).generator = (Generator.ofSeed seed).advance (m.draws ops).length ∧
    (∀ op, ((m.after ops).perform op).machine.generator =
      (m.after ops).generator.advance (drawsAmong ((m.after ops).carriedOutBy op)).length) ∧
    (∀ j d, (m.draws ops)[j]? = some d →
      d.machine.generator = (Generator.ofSeed seed).advance j ∧ d.x.toNat < 16 ∧
      (∃ after, d.machine.CarriesOut (.random d.x d.mask) after) ∧
      ∀ after, d.machine.CarriesOut (.random d.x d.mask) after →
        after.registers.get? d.x = some (Generator.stream seed j &&& d.mask) ∧
        (∀ y, y ≠ d.x → after.registers.get? y = d.machine.registers.get? y) ∧
        after.generator = (Generator.ofSeed seed).advance (j + 1)) ∧
    ∀ {rom' : Array UInt8} {settings' : Settings} {entropy' : ChaCha.Key} {m' : Machine}
      {events' : List Event}, Machine.new rom' settings' entropy' = .ok (m', events') →
      settings'.seed = some seed → ∀ (ops' : List Operation) (j : Nat) (d d' : Draw),
        (m.draws ops)[j]? = some d → (m'.draws ops')[j]? = some d' →
        d.machine.generator.next.1 = d'.machine.generator.next.1 := by
  obtain ⟨hgenerator, hdraws⟩ := draws_of_new hnew hseed ops
  have hm := (wellFormed_new hnew).toBounded
  refine ⟨hgenerator, fun op => ?_, fun j d hd => ?_, ?_⟩
  · exact (keptByRuns_drawn.perform (hm.after ops) op).generator
  · have hposition := hdraws j d hd
    have hmem := mem_of_mem_drawsAmong (List.mem_of_getElem? hd)
    obtain ⟨left, hleft⟩ := exists_of_mem_carriedOut hmem
    refine ⟨hposition, hleft.random.1, ⟨left, hleft⟩, fun after hafter => ?_⟩
    obtain ⟨hx, hregisters, hmoved⟩ := hafter.random
    have hset : d.machine.registers.set? d.x (Generator.stream seed j &&& d.mask) =
        some after.registers := by
      rw [Registers.set?_eq_setLow _ _ hx, hregisters, hposition]
      rfl
    refine ⟨?_, fun y hy => ?_, ?_⟩
    · rw [Registers.get?_set? hset, if_pos rfl]
    · rw [Registers.get?_set? hset, if_neg hy.symm]
    · rw [hmoved, hposition, Generator.advance_succ]
  · intro rom' settings' entropy' m' events' hnew' hseed' ops' j d d' hd hd'
    rw [hdraws j d hd, (draws_of_new hnew' hseed' ops').2 j d' hd']

/-- Two draws of which the first is masked away, with a key in between. The second gets the second
    byte. -/
theorem draws_follow_stream_masked :
    ∃ m events, Machine.new #[] { seed := some 0 } (Vector.replicate 8 0) = .ok (m, events) ∧
      let ops : List Operation := [.execute (.random 1 0), .press 3, .executeAll [.random 2 0xFF]]
      (m.after ops).generator = (Generator.ofSeed 0).advance 2 ∧
      ∃ d after, (m.draws ops)[1]? = some d ∧ d.machine.CarriesOut (.random d.x d.mask) after ∧
        d.x = 2 ∧ after.registers.get? 2 = some 214 := by
  obtain ⟨m, events, hnew⟩ : ∃ m events,
      Machine.new #[] { seed := some 0 } (Vector.replicate 8 0) = .ok (m, events) :=
    ⟨_, _, new_eq_ok_iff.2 ⟨by decide, by decide, rfl, rfl⟩⟩
  refine ⟨m, events, hnew, ?_⟩
  intro ops
  obtain ⟨n, hn⟩ : ∃ n, ((m.execute (.random 1 0)).machine.perform (.press 3)).machine = n :=
    ⟨_, rfl⟩
  have hdraws : m.draws ops = [⟨m, 1, 0⟩, ⟨n, 2, 0xFF⟩] := by
    have hfirst := m.execute_random (x := 1) 0 (by decide)
    have hsecond := n.execute_random (x := 2) 0xFF (by decide)
    simp only [draws, ops, carriedOut, carriedOutBy, carriedOutAll, perform] at hn ⊢
    rw [hn]
    simp [hfirst, hsecond, drawsAmong, drawOf?]
  obtain ⟨hgenerator, -, hposition, -⟩ := draws_follow_stream hnew rfl ops
  rw [hdraws] at hgenerator hposition
  obtain ⟨-, -, ⟨after, hafter⟩, hall⟩ := hposition 1 _ rfl
  obtain ⟨hbyte, -, -⟩ := hall after hafter
  have hstream : Generator.stream 0 1 &&& 0xFF = 214 := by decide +kernel
  rw [hstream] at hbyte
  refine ⟨hgenerator, _, after, by rw [hdraws]; rfl, hafter, rfl, hbyte⟩

end Machine

end Chip8
