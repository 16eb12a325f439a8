import Chip8.Proofs.Locations

/-! # Blocks of memory

    Registers are copied to memory and back in blocks, and the digits of a register are a block of
    three. A block is much shorter than memory, so its addresses are different places even where it
    passes the top of memory and goes on at the bottom, or passes the last address that `I` can
    hold. Hence what was stored is read back, and storing what was read changes nothing. In between
    may happen whatever writes neither to memory nor to `I`. -/

namespace Chip8

namespace Memory

variable (m : Memory) {a n : Nat} {bytes : List UInt8}

theorem slice_succ (a n : Nat) : m.slice a (n + 1) = m.read a :: m.slice (a + 1) n := by
  rw [slice, List.range_succ_eq_map, List.map_cons, List.map_map, slice]
  congr 1
  exact List.map_congr_left fun k _ => congrArg m.read (by simp [Nat.add_assoc, Nat.add_comm 1])

/-- What was stored is read back: no later byte of the block comes round to an earlier one. -/
theorem read_store {k : Nat} (hk : k < bytes.length) (hsize : bytes.length ≤ 4096) :
    (m.store a bytes).read (a + k) = bytes[k] := by
  induction bytes generalizing m a k with
  | nil => cases hk
  | cons b bytes ih =>
    rw [List.length_cons] at hk hsize
    cases k with
    | zero =>
      rw [store, read_store_of_ne fun j hj => by omega, Nat.add_zero, read_write, if_pos rfl]
      rfl
    | succ k =>
      rw [store, ← Nat.add_assoc, Nat.add_right_comm, ih _ (by omega) (by omega)]
      rfl

theorem write_read (a : Nat) : m.write a (m.read a) = m := by
  cases m
  simp [write, read]

/-- Storing what is there changes nothing. -/
theorem store_slice (a n : Nat) : m.store a (m.slice a n) = m := by
  induction n generalizing a with
  | zero => rfl
  | succ n ih => rw [slice_succ, store, write_read, ih]

end Memory

theorem Registers.value_overwrite? {r s : Registers} {bytes : List UInt8} {k : Nat}
    (h : r.overwrite? bytes = some s) (hk : k < bytes.length) : s.values[k]? = some bytes[k] := by
  unfold overwrite? at h
  split at h
  · cases h
    have hsize : k < 16 := by omega
    simp [hsize, hk]
  · cases h

namespace Machine

/-- Operations that leave blocks of memory alone: none of them faults, no program is loaded, and no
    instruction that they carry out writes to memory or to `I`. -/
structure LeavesBlocks (m : Machine) (ops : List Operation) : Prop where
  completes : m.Completes ops
  noLoad : ∀ rom, .load rom ∉ ops
  noWrite : ∀ p ∈ m.carriedOut ops, .memory ∉ p.2.writes ∧ .index ∉ p.2.writes

variable {m n p : Machine} {i : Instruction} {x : UInt8}

/-! ### The instructions -/

/-- What an instruction writes neither to memory nor to `I` leaves. -/
theorem memory_index_of_effect {pc origin : UInt16} (h : { m with pc }.effect origin i = .ok n)
    (hi : .memory ∉ i.writes ∧ .index ∉ i.writes) : n.memory = m.memory ∧ n.index = m.index := by
  have hkept : ∀ q ∈ i.writes, (q == .memory || q == .index) = false := by
    intro q hq
    rw [Bool.or_eq_false_iff, beq_eq_false_iff_ne, beq_eq_false_iff_ne]
    exact ⟨fun heq => hi.1 (heq ▸ hq), fun heq => hi.2 (heq ▸ hq)⟩
  rw [← graft_of_effect hkept h]
  exact ⟨rfl, rfl⟩

theorem CarriesOut.store (hx : x.toNat < 16) (h : m.CarriesOut (.store x) n) :
    n.index = m.index ∧
      n.memory = m.memory.store m.index.toNat (m.registers.values.toList.take (x.toNat + 1)) := by
  obtain ⟨left, pc, origin, hleft, steps, delay, sound, rfl⟩ := h.exists_effect
  rw [effect, upTo?_of_lt _ hx] at hleft
  cases hleft
  exact ⟨rfl, rfl⟩

theorem CarriesOut.load (h : m.CarriesOut (.load x) n) :
    n.index = m.index ∧ n.memory = m.memory ∧
      ∀ k ≤ x.toNat, n.registers.values[k]? = some (m.memory.read (m.index.toNat + k)) := by
  obtain ⟨left, pc, origin, hleft, steps, delay, sound, rfl⟩ := h.exists_effect
  obtain ⟨registers, hload, hafter⟩ := exists_of_bind_eq_ok hleft
  cases hafter
  refine ⟨rfl, rfl, fun k hk => ?_⟩
  have hlength : k < (m.memory.slice m.index.toNat (x.toNat + 1)).length := by
    rw [Memory.length_slice]
    omega
  have hvalue := Registers.value_overwrite? (eq_some_of_checked hload) hlength
  simpa [Memory.slice] using hvalue

theorem CarriesOut.decimal (hx : x.toNat < 16) (h : m.CarriesOut (.decimal x) n) :
    n.index = m.index ∧
      n.memory = m.memory.store m.index.toNat (decimalDigits (m.register x)) := by
  obtain ⟨left, pc, origin, hleft, steps, delay, sound, rfl⟩ := h.exists_effect
  rw [effect, get_eq _ hx] at hleft
  cases hleft
  exact ⟨rfl, rfl⟩

theorem carriesOut_store (n : Machine) (hx : x.toNat < 16) :
    n.CarriesOut (.store x) (n.execute (.store x)).machine := by
  have heffect : ∃ memory, n.effect n.pc (.store x) = .ok { n with memory } := by
    rw [effect, upTo?_of_lt _ hx]
    exact ⟨_, rfl⟩
  obtain ⟨memory, hmemory⟩ := heffect
  exact carriesOut_execute hmemory

theorem carriesOut_load (n : Machine) (hx : x.toNat < 16) :
    n.CarriesOut (.load x) (n.execute (.load x)).machine := by
  obtain ⟨registers, hload⟩ := exists_overwrite?_slice n.registers n.memory n.index.toNat hx
  have heffect : n.effect n.pc (.load x) = .ok { n with registers } := by
    rw [effect, hload]
    rfl
  exact carriesOut_execute heffect

theorem carriesOut_decimal (n : Machine) (hx : x.toNat < 16) :
    n.CarriesOut (.decimal x) (n.execute (.decimal x)).machine := by
  have heffect : ∃ memory, n.effect n.pc (.decimal x) = .ok { n with memory } := by
    rw [effect, get_eq n hx]
    exact ⟨_, rfl⟩
  obtain ⟨memory, hmemory⟩ := heffect
  exact carriesOut_execute hmemory

/-! ### In between -/

/-- What keeps memory and `I`: instructions that write to neither. -/
theorem keptByInstructions_blocks :
    KeptByInstructions fun m l n =>
      (∀ p ∈ l, .memory ∉ p.2.writes ∧ .index ∉ p.2.writes) →
        n.memory = m.memory ∧ n.index = m.index where
  refl _ _ := ⟨rfl, rfl⟩
  trans hfirst hrest hl := by
    obtain ⟨hl, hl'⟩ := List.forall_mem_append.1 hl
    obtain ⟨hmemory, hindex⟩ := hfirst hl
    obtain ⟨hmemory', hindex'⟩ := hrest hl'
    exact ⟨hmemory'.trans hmemory, hindex'.trans hindex⟩
  effect heffect hl := memory_index_of_effect heffect (hl _ (List.mem_singleton_self _))
  count m _ := by
    obtain ⟨steps, delay, sound, hcount⟩ := m.exists_count
    rw [hcount]
    exact ⟨rfl, rfl⟩

theorem memory_index_perform {op : Operation} (hok : (m.perform op).verdict ≠ .fault)
    (hload : ∀ rom, op ≠ .load rom)
    (hwrite : ∀ p ∈ m.carriedOutBy op, .memory ∉ p.2.writes ∧ .index ∉ p.2.writes) :
    (m.perform op).machine.memory = m.memory ∧ (m.perform op).machine.index = m.index := by
  cases op with
  | step => exact keptByInstructions_blocks.step (stepped_of_ne_fault hok) hwrite
  | execute | executeAll => exact keptByInstructions_blocks.perform rfl nofun hwrite
  | press key =>
    obtain ⟨registers, keypad, hafter⟩ := m.exists_press key
    rw [perform, hafter]
    exact ⟨rfl, rfl⟩
  | release key =>
    obtain ⟨keypad, hafter⟩ := m.exists_release key
    rw [perform, hafter]
    exact ⟨rfl, rfl⟩
  | load rom => exact absurd rfl (hload rom)

theorem LeavesBlocks.after {ops : List Operation} (h : m.LeavesBlocks ops) :
    (m.after ops).memory = m.memory ∧ (m.after ops).index = m.index := by
  induction ops generalizing m with
  | nil => exact ⟨rfl, rfl⟩
  | cons op ops ih =>
    obtain ⟨hcompletes, hload, hwrite⟩ := h
    obtain ⟨hok, hcompletes⟩ := completes_cons_iff.1 hcompletes
    obtain ⟨hwrite, hwrite'⟩ := List.forall_mem_append.1 hwrite
    obtain ⟨hmemory, hindex⟩ := memory_index_perform hok
      (fun rom heq => hload rom (heq ▸ List.mem_cons_self)) hwrite
    obtain ⟨hmemory', hindex'⟩ :=
      ih ⟨hcompletes, fun rom hrom => hload rom (List.mem_cons_of_mem _ hrom), hwrite'⟩
    exact ⟨hmemory'.trans hmemory, hindex'.trans hindex⟩

/-! ### Round trips -/

theorem load_of_store {q : Machine} (hx : x.toNat < 16) (hstore : m.CarriesOut (.store x) n)
    (hmemory : q.memory = n.memory) (hindex : q.index = n.index)
    (hload : q.CarriesOut (.load x) p) {k : Nat} (hk : k ≤ x.toNat) :
    p.registers.values[k]? = m.registers.values[k]? := by
  obtain ⟨hn, hstored⟩ := hstore.store hx
  obtain ⟨-, -, hvalues⟩ := hload.load
  have hlength : k < (m.registers.values.toList.take (x.toNat + 1)).length := by
    simp
    omega
  rw [hvalues k hk, hmemory, hindex, hn, hstored,
    Memory.read_store _ hlength (by simp)]
  have hsize : k < 16 := by omega
  simp [hsize]

theorem memory_store_of_load (hx : x.toNat < 16) (hload : m.CarriesOut (.load x) n)
    (hstore : n.CarriesOut (.store x) p) : p.memory = m.memory := by
  obtain ⟨hindex, hmemory, hvalues⟩ := hload.load
  obtain ⟨-, hstored⟩ := hstore.store hx
  have hbytes : n.registers.values.toList.take (x.toNat + 1) =
      m.memory.slice m.index.toNat (x.toNat + 1) := by
    refine List.ext_getElem (by simp; omega) fun k hk hk' => ?_
    have hle : k ≤ x.toNat := by
      rw [Memory.length_slice] at hk'
      omega
    have hsize : k < 16 := by omega
    have hvalue := hvalues k hle
    rw [Vector.getElem?_eq_getElem hsize] at hvalue
    simpa [Memory.slice] using hvalue
  rw [hstored, hindex, hmemory, hbytes, Memory.store_slice]

/-- The digits of a byte. -/
theorem toNat_decimalDigits (v : UInt8) :
    ∃ h t o : UInt8, decimalDigits v = [h, t, o] ∧ h.toNat ≤ 9 ∧ t.toNat ≤ 9 ∧ o.toNat ≤ 9 ∧
      100 * h.toNat + 10 * t.toNat + o.toNat = v.toNat := by
  have hv := v.toNat_lt
  refine ⟨_, _, _, rfl, ?_⟩
  simp only [UInt8.toNat_div, UInt8.toNat_mod, UInt8.reduceToNat]
  omega

theorem digits_of_decimal (hx : x.toNat < 16) (hdecimal : m.CarriesOut (.decimal x) n)
    (hload : n.CarriesOut (.load 2) p) :
    (p.register 0).toNat ≤ 9 ∧ (p.register 1).toNat ≤ 9 ∧ (p.register 2).toNat ≤ 9 ∧
      100 * (p.register 0).toNat + 10 * (p.register 1).toNat + (p.register 2).toNat =
        (m.register x).toNat := by
  obtain ⟨hindex, hstored⟩ := hdecimal.decimal hx
  obtain ⟨-, -, hvalues⟩ := hload.load
  obtain ⟨h, t, o, hdigits, hsum⟩ := toNat_decimalDigits (m.register x)
  have hregister : ∀ {y : UInt8} (hy : y.toNat < 3), p.register y = [h, t, o][y.toNat] := by
    intro y hy
    have hsize : y.toNat < 16 := by omega
    have hvalue := hvalues y.toNat (Nat.le_of_lt_succ hy)
    rw [hindex, hstored, hdigits, Memory.read_store _ hy (by simp),
      Vector.getElem?_eq_getElem hsize] at hvalue
    simpa [register, Registers.getLow, Nat.mod_eq_of_lt hsize] using hvalue
  rw [hregister (y := 0) (by decide), hregister (y := 1) (by decide),
    hregister (y := 2) (by decide)]
  exact hsum

/-- A cell outside of a block, counted around the ring. -/
theorem read_of_outside {bytes : List UInt8} {a b last : Nat} (mem : Memory)
    (hlength : bytes.length = last + 1) (h : ∀ k ≤ last, (a + k) % 4096 ≠ b % 4096) :
    (mem.store a bytes).read b = mem.read b :=
  Memory.read_store_of_ne fun k hk => h k (by omega)

/-- Blocks go to memory and back unchanged, wherever they lie, also across the top of memory and
    across the last address. What is stored is loaded again, with anything in between that leaves
    blocks alone; what is loaded and stored again leaves memory as it was; and the digits of a
    register, loaded into three registers, are its decimal digits. Each of these instructions is
    carried out when it is executed. All leave `I` alone, and memory outside of the block. -/
theorem blocks_round_trip (m : Machine) {x r : UInt8} (hx : x.toNat < 16) (hr : r.toNat < 16) :
    (∀ n : Machine, ∀ i ∈ [Instruction.store x, .load x, .decimal r, .load 2],
      n.CarriesOut i (n.execute i).machine) ∧
    (∀ n ops p, m.CarriesOut (.store x) n → n.LeavesBlocks ops →
      (n.after ops).CarriesOut (.load x) p →
      (∀ k ≤ x.toNat, p.registers.values[k]? = m.registers.values[k]?) ∧ p.index = m.index ∧
      ∀ b, (∀ k ≤ x.toNat, (m.index.toNat + k) % 4096 ≠ b % 4096) →
        p.memory.read b = m.memory.read b) ∧
    (∀ n p, m.CarriesOut (.load x) n → n.CarriesOut (.store x) p →
      p.memory = m.memory ∧ p.index = m.index) ∧
    ∀ n p, m.CarriesOut (.decimal r) n → n.CarriesOut (.load 2) p →
      ((p.register 0).toNat ≤ 9 ∧ (p.register 1).toNat ≤ 9 ∧ (p.register 2).toNat ≤ 9 ∧
        100 * (p.register 0).toNat + 10 * (p.register 1).toNat + (p.register 2).toNat =
          (m.register r).toNat) ∧ p.index = m.index ∧
      ∀ b, (∀ k ≤ 2, (m.index.toNat + k) % 4096 ≠ b % 4096) →
        p.memory.read b = m.memory.read b := by
  refine ⟨?_, ?_, ?_, ?_⟩
  · intro n i hi
    simp only [List.mem_cons, List.not_mem_nil, or_false] at hi
    rcases hi with rfl | rfl | rfl | rfl
    · exact n.carriesOut_store hx
    · exact n.carriesOut_load hx
    · exact n.carriesOut_decimal hr
    · exact n.carriesOut_load (by decide)
  · intro n ops p hstore hops hload
    obtain ⟨hmemory, hindex⟩ := hops.after
    obtain ⟨hn, hstored⟩ := hstore.store hx
    obtain ⟨hp, hkept, -⟩ := hload.load
    refine ⟨fun k hk => load_of_store hx hstore hmemory hindex hload hk, ?_, fun b hb => ?_⟩
    · rw [hp, hindex, hn]
    · rw [hkept, hmemory, hstored]
      exact read_of_outside _ (by simp; omega) hb
  · intro n p hload hstore
    refine ⟨memory_store_of_load hx hload hstore, ?_⟩
    rw [(hstore.store hx).1, hload.load.1]
  · intro n p hdecimal hload
    obtain ⟨hn, hstored⟩ := hdecimal.decimal hr
    obtain ⟨hp, hkept, -⟩ := hload.load
    refine ⟨digits_of_decimal hr hdecimal hload, ?_, fun b hb => ?_⟩
    · rw [hp, hn]
    · rw [hkept, hstored]
      exact read_of_outside _ rfl hb

/-- Two registers stored across the top of memory, with an instruction and a key before they are
    loaded again, and the digits of the first. -/
theorem blocks_round_trip_top :
    ∃ m : Machine, m.index = 0xFFFF ∧ m.register 0 = 234 ∧
      let n := (m.execute (.store 1)).machine
      let ops : List Operation := [.execute (.setConst 0 7), .press 3]
      n.LeavesBlocks ops ∧
      let p := ((n.after ops).execute (.load 1)).machine
      p.registers.values[0]? = some 234 ∧ p.index = 0xFFFF ∧
      let q := ((m.execute (.decimal 0)).machine.execute (.load 2)).machine
      100 * (q.register 0).toNat + 10 * (q.register 1).toNat + (q.register 2).toNat = 234 := by
  let m : Machine :=
    { blank {} (Vector.replicate 8 0) with
      index := 0xFFFF, registers := Registers.zero.setLow 0 234 }
  have hregister : m.register 0 = 234 := by decide
  refine ⟨m, rfl, hregister, ?_⟩
  intro n ops
  have hops : n.LeavesBlocks ops := by
    refine ⟨completes_cons_iff.2 ⟨nofun, completes_cons_iff.2 ⟨nofun, completes_nil _⟩⟩,
      fun rom => by simp [ops], ?_⟩
    intro q hq
    have hsecond : q.2 = .setConst 0 7 := by
      simp only [ops, carriedOut, carriedOutBy, carriedOutAll] at hq
      split at hq <;> simp_all
    simp [hsecond, Instruction.writes]
  refine ⟨hops, ?_⟩
  obtain ⟨hcarries, hback, -, hdigits⟩ :=
    m.blocks_round_trip (x := 1) (r := 0) (by decide) (by decide)
  obtain ⟨hvalues, hindex, -⟩ :=
    hback n ops _ (hcarries m _ (by simp)) hops (hcarries _ _ (by simp))
  obtain ⟨⟨-, -, -, hsum⟩, -⟩ := hdigits _ _ (hcarries m _ (by simp)) (hcarries _ _ (by simp))
  rw [hregister] at hsum
  exact ⟨(hvalues 0 (by decide)).trans (by decide), hindex, hsum⟩

end Machine

end Chip8
