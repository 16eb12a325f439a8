import Chip8.Proofs.Locations

/-! # Flags

    Five instructions leave a flag in `VF` besides their result, and their registers may coincide
    with each other and with `VF`. Both numbers come from the values before the instruction, and the
    flag is written last. So the flag is right always, and together with a result that it does not
    overwrite it makes up the exact sum, double, half or difference. -/

namespace Chip8

namespace Registers

variable (r : Registers) {x y : UInt8} (v : UInt8) (on : Bool)

theorem getLow_setFlag_flag : (r.setFlag on).getLow 0xF = if on then 1 else 0 := by
  simp [getLow, setFlag]

theorem getLow_setFlag_of_ne (h : x.toNat % 16 ≠ 15) : (r.setFlag on).getLow x = r.getLow x := by
  simp [getLow, setFlag, h.symm]

theorem getLow_setLow_self : (r.setLow x v).getLow x = v := by
  simp [getLow, setLow]

end Registers

namespace Machine

/-- What `i` computes on `m`, however it is carried out: `flag` in `VF`, and a result in register
    `x` that makes up `law` with it, unless that is the register which the flag replaces. -/
structure Computes (m : Machine) (i : Instruction) (x : UInt8) (flag : Nat)
    (law : Nat → Nat → Prop) : Prop where
  carriesOut : m.CarriesOut i (m.execute i).machine
  flag_eq : ∀ n, m.CarriesOut i n → (n.register 0xF).toNat = flag
  result : ∀ n, m.CarriesOut i n → x ≠ 0xF → law (n.register 0xF).toNat (n.register x).toNat

variable {m n : Machine} {i : Instruction} {x y : UInt8}

/-! ### Result and flag -/

theorem toNat_mod_ne_of_ne (hx : x.toNat < 16) (h : x ≠ 0xF) : x.toNat % 16 ≠ 15 := by
  rw [Nat.mod_eq_of_lt hx]
  exact fun heq => h (UInt8.toNat_inj.1 heq)

/-- Result first, flag last. -/
theorem computes_of_effect (hx : x.toNat < 16) (v : UInt8) (on : Bool) {flag : Nat}
    {law : Nat → Nat → Prop}
    (heffect : ∀ pc origin, { m with pc }.effect origin i = { m with pc }.setWithFlag x v on)
    (hflag : (if on then 1 else 0) = flag) (hlaw : law flag v.toNat) :
    m.Computes i x flag law := by
  have hafter : ∀ n, m.CarriesOut i n → n.registers = (m.registers.setLow x v).setFlag on := by
    intro n hn
    obtain ⟨left, pc, origin, hleft, steps, delay, sound, rfl⟩ := hn.exists_effect
    rw [heffect, setWithFlag_eq _ v on hx] at hleft
    cases hleft
    rfl
  have hvf : ∀ n, m.CarriesOut i n → (n.register 0xF).toNat = flag := by
    intro n hn
    rw [register, hafter n hn, Registers.getLow_setFlag_flag, ← hflag]
    cases on <;> rfl
  refine ⟨?_, hvf, fun n hn hne => ?_⟩
  · have hdone := heffect m.pc m.pc
    rw [setWithFlag_eq _ v on hx] at hdone
    exact carriesOut_execute hdone
  · rw [hvf n hn, register, hafter n hn,
      Registers.getLow_setFlag_of_ne _ _ (toNat_mod_ne_of_ne hx hne), Registers.getLow_setLow_self]
    exact hlaw

/-! ### The five instructions -/

theorem computes_add (m : Machine) (hx : x.toNat < 16) (hy : y.toNat < 16) :
    let a := (m.register x).toNat
    let b := (m.register y).toNat
    m.Computes (.add x y) x (if 255 < a + b then 1 else 0) fun f r => 256 * f + r = a + b := by
  intro a b
  have ha := (m.register x).toNat_lt
  have hb := (m.register y).toNat_lt
  refine computes_of_effect hx (m.register x + m.register y) (decide (255 < a + b))
    (fun pc origin => ?_) (by simp) ?_
  · rw [effect, get_eq _ hx, get_eq _ hy]
    rfl
  · rw [UInt8.toNat_add]
    split <;> omega

/-- A difference, and the flag that says whether it is positive. -/
theorem computes_difference (hx : x.toNat < 16) {u w : UInt8}
    (heffect : ∀ pc origin,
      { m with pc }.effect origin i = { m with pc }.setWithFlag x (u - w) (w < u)) :
    m.Computes i x (if w.toNat < u.toNat then 1 else 0) fun f r =>
      (r : ℤ) = ((u.toNat : ℤ) - w.toNat) % 256 ∧ (f = 1 → u.toNat = w.toNat + r) := by
  have hu := u.toNat_lt
  have hw := w.toNat_lt
  refine computes_of_effect hx (u - w) (w < u) heffect ?_ ?_
  · simp only [UInt8.lt_iff_toNat_lt, decide_eq_true_eq]
  · rw [UInt8.toNat_sub]
    split <;> omega

theorem computes_sub (m : Machine) (hx : x.toNat < 16) (hy : y.toNat < 16) :
    let a := (m.register x).toNat
    let b := (m.register y).toNat
    m.Computes (.sub x y) x (if b < a then 1 else 0) fun f r =>
      (r : ℤ) = ((a : ℤ) - b) % 256 ∧ (f = 1 → a = b + r) := by
  refine computes_difference hx fun pc origin => ?_
  rw [effect, get_eq _ hx, get_eq _ hy]
  rfl

theorem computes_subFrom (m : Machine) (hx : x.toNat < 16) (hy : y.toNat < 16) :
    let a := (m.register x).toNat
    let b := (m.register y).toNat
    m.Computes (.subFrom x y) x (if a < b then 1 else 0) fun f r =>
      (r : ℤ) = ((b : ℤ) - a) % 256 ∧ (f = 1 → b = a + r) := by
  refine computes_difference hx fun pc origin => ?_
  rw [effect, get_eq _ hx, get_eq _ hy]
  rfl

theorem computes_shiftRight (m : Machine) (hx : x.toNat < 16) :
    let a := (m.register x).toNat
    m.Computes (.shiftRight x) x (a % 2) fun f r => 2 * r + f = a := by
  intro a
  refine computes_of_effect hx (m.register x >>> 1) (m.register x &&& 1 == 1)
    (fun pc origin => ?_) ?_ ?_
  · rw [effect, get_eq _ hx]
    rfl
  · have hbit : (m.register x &&& 1).toNat = a % 2 := by
      rw [UInt8.toNat_and]
      exact Nat.and_one_is_mod a
    simp only [beq_iff_eq, ← UInt8.toNat_inj, hbit, UInt8.reduceToNat]
    split <;> omega
  · have hhalf : (m.register x >>> 1).toNat = a / 2 := by
      rw [UInt8.toNat_shiftRight]
      exact Nat.shiftRight_one a
    rw [hhalf]
    omega

theorem computes_shiftLeft (m : Machine) (hx : x.toNat < 16) :
    let a := (m.register x).toNat
    m.Computes (.shiftLeft x) x (a / 128) fun f r => 256 * f + r = 2 * a := by
  intro a
  have ha : a < 256 := (m.register x).toNat_lt
  refine computes_of_effect hx (m.register x <<< 1) (m.register x >>> 7 == 1)
    (fun pc origin => ?_) ?_ ?_
  · rw [effect, get_eq _ hx]
    rfl
  · have hbit : (m.register x >>> 7).toNat = a / 128 := by
      rw [UInt8.toNat_shiftRight]
      exact Nat.shiftRight_eq_div_pow a 7
    simp only [beq_iff_eq, ← UInt8.toNat_inj, hbit, UInt8.reduceToNat]
    split <;> omega
  · have hdouble : (m.register x <<< 1).toNat = 2 * a % 256 := by
      rw [UInt8.toNat_shiftLeft, Nat.mul_comm]
      exact congrArg (· % 256) (Nat.shiftLeft_eq a 1)
    rw [hdouble]
    omega

/-! ### Instructions without a flag -/

/-- What cannot change `VF` leaves it alone, however it is carried out. -/
theorem CarriesOut.flag_of_not_mem (h : m.CarriesOut i n)
    (hi : ∀ p : Machine, .register 15 ∉ p.footprint i) : n.register 0xF = m.register 0xF := by
  obtain ⟨left, pc, origin, hleft, steps, delay, sound, rfl⟩ := h.exists_effect
  have hvalue := value_of_effect hleft (hi _)
  simpa [register, Registers.getLow] using hvalue

theorem keepsFlag (m : Machine) (hx : x.toNat < 16) (hy : y.toNat < 16) {c : UInt8}
    (hi : i ∈ [.addConst x c, .move x y, .or x y, .and x y, .xor x y]) :
    m.CarriesOut i (m.execute i).machine ∧
      ∀ n, m.CarriesOut i n → x ≠ 0xF → n.register 0xF = m.register 0xF := by
  simp only [List.mem_cons, List.not_mem_nil, or_false] at hi
  constructor
  · have hdone : ∃ v, m.effect m.pc i = m.set x v := by
      rcases hi with rfl | rfl | rfl | rfl | rfl <;>
        simp only [effect, get_eq m hx, get_eq m hy, ok_bind] <;> exact ⟨_, rfl⟩
    obtain ⟨v, hv⟩ := hdone
    exact carriesOut_execute (hv.trans (set_eq m v hx))
  · intro n hn hne
    refine hn.flag_of_not_mem fun p => ?_
    have hfootprint : p.footprint i = [.register x.toNat] := by
      rcases hi with rfl | rfl | rfl | rfl | rfl <;> rfl
    have hneq : 15 ≠ x.toNat := fun heq => hne (UInt8.toNat_inj.1 heq.symm)
    simp [hfootprint, hneq]

/-- Flags are exact, whichever registers coincide. With `a` and `b` the values before the
    instruction, `VF` is the carry, whether the difference is positive, or the bit shifted out, also
    where `VF` is an operand or the result; and a result in another register makes up the exact
    value together with it. The instructions without a flag leave `VF` as it was, unless it is their
    result. -/
theorem flags_exact (m : Machine) (hx : x.toNat < 16) (hy : y.toNat < 16) :
    let a := (m.register x).toNat
    let b := (m.register y).toNat
    m.Computes (.add x y) x (if 255 < a + b then 1 else 0) (fun f r => 256 * f + r = a + b) ∧
    m.Computes (.sub x y) x (if b < a then 1 else 0)
      (fun f r => (r : ℤ) = ((a : ℤ) - b) % 256 ∧ (f = 1 → a = b + r)) ∧
    m.Computes (.subFrom x y) x (if a < b then 1 else 0)
      (fun f r => (r : ℤ) = ((b : ℤ) - a) % 256 ∧ (f = 1 → b = a + r)) ∧
    m.Computes (.shiftRight x) x (a % 2) (fun f r => 2 * r + f = a) ∧
    m.Computes (.shiftLeft x) x (a / 128) (fun f r => 256 * f + r = 2 * a) ∧
    ∀ c, ∀ i ∈ [Instruction.addConst x c, .move x y, .or x y, .and x y, .xor x y],
      m.CarriesOut i (m.execute i).machine ∧
        ∀ n, m.CarriesOut i n → x ≠ 0xF → n.register 0xF = m.register 0xF := by
  intro a b
  exact ⟨m.computes_add hx hy, m.computes_sub hx hy, m.computes_subFrom hx hy,
    m.computes_shiftRight hx, m.computes_shiftLeft hx, fun c i hi => m.keepsFlag hx hy hi⟩

/-- `VF` added to itself and taken from itself, and `V3` taken from it. -/
theorem flags_exact_itself :
    ∃ m : Machine, m.register 0xF = 200 ∧ m.register 3 = 100 ∧
      (m.execute (.add 0xF 0xF)).machine.register 0xF = 1 ∧
      (m.execute (.sub 0xF 0xF)).machine.register 0xF = 0 ∧
      let n := (m.execute (.sub 3 0xF)).machine
      n.register 0xF = 0 ∧ n.register 3 = 156 := by
  let m : Machine :=
    { blank {} (Vector.replicate 8 0) with
      registers := (Registers.zero.setLow 0xF 200).setLow 3 100 }
  have hflag : m.register 0xF = 200 := by decide
  have hthree : m.register 3 = 100 := by decide
  refine ⟨m, hflag, hthree, ?_⟩
  obtain ⟨hadd, hsub, -⟩ := m.flags_exact (x := 0xF) (y := 0xF) (by decide) (by decide)
  obtain ⟨-, hthird, -⟩ := m.flags_exact (x := 3) (y := 0xF) (by decide) (by decide)
  rw [hflag] at hadd hsub
  rw [hflag, hthree] at hthird
  obtain ⟨hresult, -⟩ := hthird.result _ hthird.carriesOut (by decide)
  refine ⟨UInt8.toNat_inj.1 (hadd.flag_eq _ hadd.carriesOut),
    UInt8.toNat_inj.1 (hsub.flag_eq _ hsub.carriesOut),
    UInt8.toNat_inj.1 (hthird.flag_eq _ hthird.carriesOut), UInt8.toNat_inj.1 ?_⟩
  exact Int.ofNat_inj.1 hresult

end Machine

end Chip8
