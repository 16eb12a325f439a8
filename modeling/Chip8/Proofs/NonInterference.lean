import Chip8.Proofs.Footprint
import Chip8.Proofs.Runs

/-! # Where settings are seen

    Two machines with the same program and different settings are driven in the same way. Their
    timers and their random bytes may drift apart, but that goes unnoticed until an instruction
    looks: a random byte that is not masked away, a timer that is read, an indexed jump beyond the
    first page, or a sprite over the edge of the screen. Up to then the machines are the same in all
    other parts, and so are the outcomes of all that is done to them. -/

namespace Chip8

/-- The parts that settings govern. -/
def Part.isGoverned : Part → Bool
  | .settings | .delay | .sound | .generator => true
  | _ => false

namespace Sprite

theorem onAxis?_of_lt (w : Bool) {size coord : Nat} (h : coord < size) :
    onAxis? w size coord = some coord :=
  if_pos h

theorem rowPixels_eq_of_inside (w w' : Bool) {x : Nat} (y : Nat) {row : UInt8}
    (h : ∀ col < 8, isSet row col = true → x + col < 64) :
    rowPixels w x y row = rowPixels w' x y row := by
  refine List.filterMap_congr fun col hcol => ?_
  split
  · rename_i hset
    have hx : x + col < Screen.width := h col (List.mem_range.1 hcol) hset
    rw [onAxis?_of_lt w hx, onAxis?_of_lt w' hx]
  · rfl

theorem rowPixels_eq_nil (w : Bool) (x y : Nat) {row : UInt8}
    (h : ∀ col < 8, isSet row col = false) : rowPixels w x y row = [] := by
  refine List.filterMap_eq_nil_iff.2 fun col hcol => ?_
  rw [h col (List.mem_range.1 hcol)]
  rfl

/-- A sprite with no set bit beyond the edges is drawn in the same way with wrapping and without. -/
theorem pixels_eq_of_inside (w w' : Bool) {x y : Nat} {rows : List UInt8}
    (h : ∀ r (hr : r < rows.length), ∀ col < 8, isSet rows[r] col = true →
      x + col < 64 ∧ y + r < 32) : pixels w x y rows = pixels w' x y rows := by
  induction rows generalizing y with
  | nil => rfl
  | cons row rows ih =>
    have hrow : ∀ col < 8, isSet row col = true → x + col < 64 ∧ y < 32 :=
      fun col hcol hset => h 0 (Nat.succ_pos _) col hcol hset
    have hrest : pixels w x (y + 1) rows = pixels w' x (y + 1) rows := by
      refine ih fun r hr col hcol hset => ?_
      have hlater := h (r + 1) (Nat.succ_lt_succ hr) col hcol hset
      omega
    rw [pixels, pixels, hrest]
    by_cases hy : y < Screen.height
    · rw [onAxis?_of_lt w hy, onAxis?_of_lt w' hy]
      simp only [rowPixels_eq_of_inside w w' y fun col hcol hset => (hrow col hcol hset).1]
    · -- a row below the screen has no set bit, so it does not matter where it lands
      have hclear : ∀ col < 8, isSet row col = false := fun col hcol =>
        Bool.eq_false_iff.2 fun hset => hy (hrow col hcol hset).2
      simp only [rowPixels_eq_nil _ x _ hclear]
      split <;> split <;> rfl

end Sprite

namespace Machine

variable {s t : Settings} {m n after : Machine} {i : Instruction} {origin : UInt16}

/-- Whether a set bit of a sprite is beyond the right or the lower edge of the screen. -/
def Overhangs (m : Machine) (x y rows : UInt8) : Prop :=
  ∃ row < rows.toNat, ∃ col < 8,
    (m.memory.read (m.index.toNat + row)).toNat.testBit (7 - col) = true ∧
      (64 ≤ x.toNat + col ∨ 32 ≤ y.toNat + row)

/-- Whether an instruction looks at what two settings make different. -/
def Tells (s t : Settings) (m : Machine) : Instruction → Prop
  | .random _ mask => s.seed ≠ t.seed ∧ mask ≠ 0
  | .readDelay _ => s.speed ≠ t.speed
  | .jumpIndexed base => s.jumps ≠ t.jumps ∧ 0xFF < base.toNat + (m.register 0).toNat
  | .draw x y rows => s.wraps ≠ t.wraps ∧ m.Overhangs (m.register x) (m.register y) rows
  | _ => False

/-- Machines with settings `s` and `t` that are the same in all parts that settings do not govern,
    have the same timers if their speeds are the same, and will get the same random bytes if their
    seeds are the same. -/
structure Alike (s t : Settings) (m n : Machine) : Prop where
  left : m.settings = s
  right : n.settings = t
  rest : n = { m with
    settings := n.settings, delay := n.delay, sound := n.sound, generator := n.generator }
  timers : s.speed = t.speed → n.delay = m.delay ∧ n.sound = m.sound
  generator : s.seed = t.seed → n.generator = m.generator

end Machine

/-- Outcomes with the same verdict, alike machines and, if the speeds are the same, the same
    events. -/
structure Outcome.Alike (s t : Settings) (o p : Outcome) : Prop where
  verdict : p.verdict = o.verdict
  machine : o.machine.Alike s t p.machine
  events : s.speed = t.speed → p.events = o.events

namespace Machine

variable {s t : Settings} {m n after : Machine} {i : Instruction} {origin : UInt16}

theorem Alike.exists_governed (h : Alike s t m n) :
    ∃ delay sound generator, n = { m with settings := t, delay, sound, generator } ∧
      (s.speed = t.speed → delay = m.delay ∧ sound = m.sound) ∧
      (s.seed = t.seed → generator = m.generator) :=
  ⟨n.delay, n.sound, n.generator, h.right ▸ h.rest, h.timers, h.generator⟩

/-! ### Instructions -/

/-- An instruction that neither looks at what settings govern nor changes it. -/
theorem Alike.effect_of_avoids (h : Alike s t m n) (hi : i.Avoids Part.isGoverned)
    (heffect : m.effect origin i = .ok after) :
    ∃ after', n.effect origin i = .ok after' ∧ Alike s t after after' := by
  have hn : m.graft Part.isGoverned n = n := h.rest.symm
  have heffect' : (m.graft Part.isGoverned n).effect origin i =
      .ok (after.graft Part.isGoverned n) := effect_graft hi heffect
  rw [hn] at heffect'
  have hkept := graft_of_effect (fun p hp => hi p (List.mem_append_right _ hp)) heffect
  have hsettings : after.settings = m.settings := by rw [← hkept]; rfl
  have hdelay : after.delay = m.delay := by rw [← hkept]; rfl
  have hsound : after.sound = m.sound := by rw [← hkept]; rfl
  have hgenerator : after.generator = m.generator := by rw [← hkept]; rfl
  refine ⟨_, heffect', hsettings.trans h.left, h.right, rfl, ?_, ?_⟩
  · rw [hdelay, hsound]
    exact h.timers
  · rw [hgenerator]
    exact h.generator

theorem jumpTarget_of_le {base : UInt16} {v : UInt8} (mode : JumpMode)
    (h : base.toNat + v.toNat ≤ 0xFF) : jumpTarget mode base v = base + v.toUInt16 := by
  cases mode with
  | full => rfl
  | truncated =>
    rw [jumpTarget, ← UInt16.toNat_inj, UInt16.toNat_and]
    refine Nat.and_two_pow_sub_one_of_lt_two_pow (n := 8) ?_
    rw [UInt16.toNat_add, UInt8.toNat_toUInt16]
    omega

theorem pixels_eq_of_not_overhangs {x y rows : UInt8} (w w' : Bool)
    (h : ¬ m.Overhangs x y rows) :
    Sprite.pixels w x.toNat y.toNat (m.memory.slice m.index.toNat rows.toNat) =
      Sprite.pixels w' x.toNat y.toNat (m.memory.slice m.index.toNat rows.toNat) := by
  refine Sprite.pixels_eq_of_inside w w' fun r hr col hcol hset => ?_
  have hrow : r < rows.toNat := by rwa [Memory.length_slice] at hr
  by_contra hout
  refine h ⟨r, hrow, col, hcol, ?_, by omega⟩
  simpa [Sprite.isSet, Memory.slice] using hset

theorem Alike.random (h : Alike s t m n) {x mask : UInt8} (hx : x.toNat < 16)
    (htells : ¬ Tells s t m (.random x mask))
    (heffect : m.effect origin (.random x mask) = .ok after) :
    ∃ after', n.effect origin (.random x mask) = .ok after' ∧ Alike s t after after' := by
  obtain ⟨delay, sound, generator, rfl, htimers, hgenerator⟩ := h.exists_governed
  have hbyte : m.generator.next.1 &&& mask = generator.next.1 &&& mask := by
    by_cases hseed : s.seed = t.seed
    · rw [hgenerator hseed]
    · have hmask : mask = 0 := not_not.1 fun hmask => htells ⟨hseed, hmask⟩
      rw [hmask, UInt8.and_zero, UInt8.and_zero]
  simp only [Machine.effect, set_eq, hx] at heffect ⊢
  cases heffect
  rw [← hbyte]
  exact ⟨_, rfl, h.left, rfl, rfl, htimers, fun hseed => by rw [hgenerator hseed]⟩

theorem Alike.readDelay (h : Alike s t m n) {x : UInt8} (hx : x.toNat < 16)
    (htells : ¬ Tells s t m (.readDelay x)) (heffect : m.effect origin (.readDelay x) = .ok after) :
    ∃ after', n.effect origin (.readDelay x) = .ok after' ∧ Alike s t after after' := by
  obtain ⟨delay, sound, generator, rfl, htimers, hgenerator⟩ := h.exists_governed
  have hdelay : delay = m.delay := (htimers (not_not.1 htells)).1
  subst hdelay
  simp only [Machine.effect, set_eq, hx] at heffect ⊢
  cases heffect
  exact ⟨_, rfl, h.left, rfl, rfl, htimers, hgenerator⟩

theorem Alike.jumpIndexed (h : Alike s t m n) {base : UInt16}
    (htells : ¬ Tells s t m (.jumpIndexed base))
    (heffect : m.effect origin (.jumpIndexed base) = .ok after) :
    ∃ after', n.effect origin (.jumpIndexed base) = .ok after' ∧ Alike s t after after' := by
  obtain ⟨delay, sound, generator, rfl, htimers, hgenerator⟩ := h.exists_governed
  have htarget : jumpTarget m.settings.jumps base (m.register 0) =
      jumpTarget t.jumps base (m.register 0) := by
    by_cases hjumps : s.jumps = t.jumps
    · rw [h.left, hjumps]
    · have hle : base.toNat + (m.register 0).toNat ≤ 0xFF :=
        Nat.le_of_not_lt fun hlt => htells ⟨hjumps, hlt⟩
      rw [jumpTarget_of_le _ hle, jumpTarget_of_le _ hle]
  have hget : Machine.get { m with settings := t, delay, sound, generator } 0 = m.get 0 := rfl
  rw [Machine.effect, get_eq m (by decide), ok_bind, htarget] at heffect
  cases heffect
  rw [Machine.effect, hget, get_eq m (by decide), ok_bind]
  exact ⟨_, rfl, h.left, rfl, rfl, htimers, hgenerator⟩

theorem Alike.draw (h : Alike s t m n) {x y rows : UInt8} (hx : x.toNat < 16)
    (hy : y.toNat < 16) (htells : ¬ Tells s t m (.draw x y rows))
    (heffect : m.effect origin (.draw x y rows) = .ok after) :
    ∃ after', n.effect origin (.draw x y rows) = .ok after' ∧ Alike s t after after' := by
  obtain ⟨delay, sound, generator, rfl, htimers, hgenerator⟩ := h.exists_governed
  have hpixels : Sprite.pixels m.settings.wraps (m.register x).toNat (m.register y).toNat
        (m.memory.slice m.index.toNat rows.toNat) =
      Sprite.pixels t.wraps (m.register x).toNat (m.register y).toNat
        (m.memory.slice m.index.toNat rows.toNat) := by
    by_cases hwraps : s.wraps = t.wraps
    · rw [h.left, hwraps]
    · exact pixels_eq_of_not_overhangs _ _ fun hover => htells ⟨hwraps, hover⟩
  have hget : Machine.get { m with settings := t, delay, sound, generator } = m.get := rfl
  rw [Machine.effect, get_eq m hx, get_eq m hy, ok_bind, ok_bind, drawSprite, hpixels] at heffect
  obtain ⟨⟨hit, screen⟩, htoggle, hdrawn⟩ := exists_of_bind_eq_ok heffect
  cases hdrawn
  rw [Machine.effect, hget, get_eq m hx, get_eq m hy, ok_bind, ok_bind, drawSprite, htoggle]
  exact ⟨_, rfl, h.left, rfl, rfl, htimers, hgenerator⟩

theorem Alike.setTimer (h : Alike s t m n) {x : UInt8}
    (hi : i = .setDelay x ∨ i = .setSound x) (heffect : m.effect origin i = .ok after) :
    ∃ after', n.effect origin i = .ok after' ∧ Alike s t after after' := by
  obtain ⟨delay, sound, generator, rfl, htimers, hgenerator⟩ := h.exists_governed
  have hget : Machine.get { m with settings := t, delay, sound, generator } x = m.get x := rfl
  rcases hi with rfl | rfl <;>
  · obtain ⟨v, hv, hset⟩ := exists_of_bind_eq_ok heffect
    cases hset
    rw [Machine.effect, hget, hv]
    exact ⟨_, rfl, h.left, rfl, rfl, fun hspeed => by simp [htimers hspeed], hgenerator⟩

/-- An instruction that does not look at what the settings make different. -/
theorem Alike.effect (h : Alike s t m n) (hi : i.InRange) (htells : ¬ Tells s t m i)
    (heffect : m.effect origin i = .ok after) :
    ∃ after', n.effect origin i = .ok after' ∧ Alike s t after after' := by
  cases i with
  | random x mask =>
    have hx := hi (.reg x) (by simp [Instruction.operands])
    exact h.random hx htells heffect
  | readDelay x =>
    have hx := hi (.reg x) (by simp [Instruction.operands])
    exact h.readDelay hx htells heffect
  | jumpIndexed base => exact h.jumpIndexed htells heffect
  | draw x y rows =>
    have hx := hi (.reg x) (by simp [Instruction.operands])
    have hy := hi (.reg y) (by simp [Instruction.operands])
    exact h.draw hx hy htells heffect
  | setDelay x => exact h.setTimer (.inl rfl) heffect
  | setSound x => exact h.setTimer (.inr rfl) heffect
  | _ =>
    refine h.effect_of_avoids ?_ heffect
    simp [Instruction.Avoids, Instruction.reads, Instruction.writes, Part.isGoverned]

/-! ### Operations -/

/-- What decides how a step goes is the same. -/
theorem Alike.seen_eq (h : Alike s t m n) :
    n.isWaiting = m.isWaiting ∧ n.fetch = m.fetch ∧ n.pc = m.pc ∧
      ∀ i, n.refusal? m.pc i = m.refusal? m.pc i := by
  obtain ⟨delay, sound, generator, rfl, -⟩ := h.exists_governed
  exact ⟨rfl, rfl, rfl, fun i => by cases i <;> rfl⟩

/-- The next instruction is fetched. -/
theorem Alike.move (h : Alike s t m n) (pc : UInt16) :
    Alike s t { m with pc } { n with pc } := by
  obtain ⟨delay, sound, generator, rfl, htimers, hgenerator⟩ := h.exists_governed
  exact ⟨h.left, rfl, rfl, htimers, hgenerator⟩

theorem exists_count_steps (m : Machine) :
    ∃ delay sound, m.count.1 = { m with steps := m.steps + 1, delay, sound } := by
  dsimp only [Machine.count]
  split <;> exact ⟨_, _, rfl⟩

/-- The count is the same, whether timers tick or not. -/
theorem Alike.count (h : Alike s t m n) :
    Alike s t m.count.1 n.count.1 ∧ (s.speed = t.speed → n.count.2 = m.count.2) := by
  obtain ⟨delay, sound, generator, rfl, htimers, hgenerator⟩ := h.exists_governed
  by_cases hspeed : s.speed = t.speed
  · obtain ⟨rfl, rfl⟩ := htimers hspeed
    obtain rfl := h.left
    simp only [Machine.count, hspeed]
    split <;> exact ⟨⟨rfl, rfl, rfl, fun _ => ⟨rfl, rfl⟩, hgenerator⟩, fun _ => rfl⟩
  · obtain ⟨delay₁, sound₁, hm⟩ := m.exists_count_steps
    obtain ⟨delay₂, sound₂, hn⟩ :=
      exists_count_steps { m with settings := t, delay, sound, generator }
    refine ⟨?_, fun heq => absurd heq hspeed⟩
    rw [hm, hn]
    exact ⟨h.left, rfl, rfl, fun heq => absurd heq hspeed, hgenerator⟩

theorem carriedOutBy_step (hw : m.isWaiting = false) (hnext : m.nextInstruction? = some i)
    (hdone : m.step.verdict = .done) : m.carriedOutBy .step = [(m, i)] := by
  rw [carriedOutBy, if_pos ⟨rfl, hw, hdone⟩, hnext]
  rfl

theorem Alike.step (h : Alike s t m n) (hm : m.Bounded) (hn : n.Bounded)
    (htells : ∀ q ∈ m.carriedOutBy .step, ¬ Tells s t q.1 q.2) :
    Outcome.Alike s t m.step n.step := by
  obtain ⟨hwaits, hfetch, hpc, hrefusal⟩ := h.seen_eq
  have hnexts : n.nextInstruction? = m.nextInstruction? := congrArg Instruction.decode? hfetch
  have hstepped := stepped hm
  generalize hstep : m.step = o at hstepped ⊢
  cases hstepped with
  | waits hw =>
    rw [Stepped.step_eq hn (.waits (hwaits.trans hw))]
    exact ⟨rfl, h, fun _ => rfl⟩
  | unknown hw hnext =>
    rw [Stepped.step_eq hn (.unknown (hwaits.trans hw) (hnexts.trans hnext)), hfetch, hpc]
    exact ⟨rfl, h, fun _ => rfl⟩
  | @refused hw i e hnext he =>
    rw [← hrefusal, ← hpc] at he
    rw [Stepped.step_eq hn (.refused (hwaits.trans hw) (hnexts.trans hnext) he), hpc]
    exact ⟨rfl, h, fun _ => rfl⟩
  | @ran hw i after hnext hfree heffect =>
    have hcarried := carriedOutBy_step hw hnext (by rw [hstep])
    have hquiet := htells (m, i) (by rw [hcarried]; exact List.mem_singleton_self _)
    have hquiet' : ¬ Tells s t { m with pc := m.pc + 2 } i := by cases i <;> exact hquiet
    obtain ⟨after', heffect', hafter⟩ :=
      (h.move (m.pc + 2)).effect (Instruction.inRange_of_decode? hnext) hquiet' heffect
    obtain ⟨hcounted, hevents⟩ := hafter.count
    rw [← hrefusal, ← hpc] at hfree
    rw [← hpc] at heffect'
    rw [Stepped.step_eq hn (.ran (hwaits.trans hw) (hnexts.trans hnext) hfree heffect'), hpc]
    exact ⟨rfl, hcounted, fun hspeed => by rw [hevents hspeed]⟩

theorem Alike.press (h : Alike s t m n) (key : UInt8) :
    Outcome.Alike s t (m.press key) (n.press key) := by
  obtain ⟨delay, sound, generator, rfl, htimers, hgenerator⟩ := h.exists_governed
  rw [Machine.press, Machine.press]
  rcases m.keypad.press key with e | ⟨_ | x, keypad⟩
  · exact ⟨rfl, h, fun _ => rfl⟩
  · exact ⟨rfl, ⟨h.left, rfl, rfl, htimers, hgenerator⟩, fun _ => rfl⟩
  · cases hset : m.registers.set? x key with
    | none => simp only [hset]; exact ⟨rfl, h, fun _ => rfl⟩
    | some registers =>
      simp only [hset]
      exact ⟨rfl, ⟨h.left, rfl, rfl, htimers, hgenerator⟩, fun _ => rfl⟩

theorem Alike.release (h : Alike s t m n) (key : UInt8) :
    Outcome.Alike s t (m.release key) (n.release key) := by
  obtain ⟨delay, sound, generator, rfl, htimers, hgenerator⟩ := h.exists_governed
  rw [Machine.release, Machine.release]
  cases m.keypad.release key with
  | error e => exact ⟨rfl, h, fun _ => rfl⟩
  | ok keypad => exact ⟨rfl, ⟨h.left, rfl, rfl, htimers, hgenerator⟩, fun _ => rfl⟩

theorem Alike.load (h : Alike s t m n) (rom : Array UInt8) :
    Outcome.Alike s t (m.load rom) (n.load rom) := by
  obtain ⟨delay, sound, generator, rfl, htimers, hgenerator⟩ := h.exists_governed
  -- said of any memory, so that the program is not compared cell by cell
  have hloaded : ∀ memory pc events, Outcome.Alike s t ⟨.done, { m with memory, pc }, events⟩
      ⟨.done, { m with memory, pc, settings := t, delay, sound, generator }, events⟩ :=
    fun _ _ _ => ⟨rfl, ⟨h.left, rfl, rfl, htimers, hgenerator⟩, fun _ => rfl⟩
  rw [Machine.load, Machine.load]
  by_cases hrom : Memory.maxRom < rom.size
  · rw [if_pos hrom, if_pos hrom]
    exact ⟨rfl, h, fun _ => rfl⟩
  · rw [if_neg hrom, if_neg hrom]
    exact hloaded _ _ _

theorem Alike.perform (h : Alike s t m n) (hm : m.Bounded) (hn : n.Bounded) {op : Operation}
    (hop : op.IsDriving) (htells : ∀ q ∈ m.carriedOutBy op, ¬ Tells s t q.1 q.2) :
    Outcome.Alike s t (m.perform op) (n.perform op) := by
  cases op with
  | step => exact h.step hm hn htells
  | press key => exact h.press key
  | release key => exact h.release key
  | load rom => exact h.load rom
  | execute | executeAll => cases hop

/-- Machines that are alike stay so while they are driven in the same way and no instruction tells
    them apart. -/
theorem Alike.history (h : Alike s t m n) (hm : m.WellFormed) (hn : n.WellFormed)
    {ops : List Operation} (hops : ∀ op ∈ ops, op.IsDriving)
    (htells : ∀ q ∈ m.carriedOut ops, ¬ Tells s t q.1 q.2) :
    List.Forall₂ (Outcome.Alike s t) (m.history ops) (n.history ops) := by
  induction ops generalizing m n with
  | nil => exact .nil
  | cons op ops ih =>
    obtain ⟨hop, hops⟩ := List.forall_mem_cons.1 hops
    obtain ⟨htells, hlater⟩ := List.forall_mem_append.1 htells
    obtain ⟨hverdict, hm'⟩ := hm.perform hop.inRange
    obtain ⟨hverdict', hn'⟩ := hn.perform hop.inRange
    have hfirst := h.perform hm.toBounded hn.toBounded hop htells
    rw [history_cons hverdict, history_cons hverdict']
    exact .cons hfirst (ih hfirst.machine hm' hn' hops hlater)

/-- Two machines with the same program and different settings, driven in the same way. As long as
    the first one executes no instruction that looks at what the settings make different, all calls
    have the same results and leave machines that are the same but for their timers and random
    bytes; and with equal speeds the timers and all events are the same as well. -/
theorem history_alike {rom : Array UInt8} (hrom : rom.size ≤ Memory.maxRom) {s t : Settings}
    (hs : s.speed ≠ 0) (ht : t.speed ≠ 0) (hseed : s.seed.isSome) (entropy entropy' : ChaCha.Key) :
    ∃ m n events, Machine.new rom s entropy = .ok (m, events) ∧
      Machine.new rom t entropy' = .ok (n, events) ∧
      ∀ ops : List Operation, (∀ op ∈ ops, op.IsDriving) →
        (∀ q ∈ m.carriedOut ops, ¬ Tells s t q.1 q.2) →
        (m.history ops).length = ops.length ∧
          List.Forall₂ (Outcome.Alike s t) (m.history ops) (n.history ops) := by
  obtain ⟨m, events, hm⟩ : ∃ m events, Machine.new rom s entropy = .ok (m, events) :=
    ⟨_, _, new_eq_ok_iff.2 ⟨hs, hrom, rfl, rfl⟩⟩
  obtain ⟨n, events', hn⟩ : ∃ n events', Machine.new rom t entropy' = .ok (n, events') :=
    ⟨_, _, new_eq_ok_iff.2 ⟨ht, hrom, rfl, rfl⟩⟩
  have hwm := wellFormed_new hm
  have hwn := wellFormed_new hn
  have hevents : events' = events := by
    rw [(new_eq_ok_iff.1 hn).2.2.2, (new_eq_ok_iff.1 hm).2.2.2]
  have halike : Alike s t m n := by
    obtain ⟨-, -, rfl, -⟩ := new_eq_ok_iff.1 hm
    obtain ⟨-, -, rfl, -⟩ := new_eq_ok_iff.1 hn
    obtain ⟨seed, hseed⟩ := Option.isSome_iff_exists.1 hseed
    refine ⟨rfl, rfl, rfl, fun _ => ⟨rfl, rfl⟩, fun heq => ?_⟩
    simp only [blank, ← heq, hseed]
  rw [hevents] at hn
  refine ⟨m, n, events, hm, hn, fun ops hops htells => ?_⟩
  exact ⟨(hwm.history fun op hop => (hops op hop).inRange).1,
    halike.history hwm hwn hops htells⟩

/-- All settings differ, and the program draws a random byte that is masked away. -/
theorem history_alike_masked :
    ∃ m n events,
      Machine.new #[0xC0, 0x00] { seed := some 0 } (Vector.replicate 8 0) = .ok (m, events) ∧
      Machine.new #[0xC0, 0x00] { wraps := true, speed := 1, jumps := .truncated, seed := some 1 }
        (Vector.replicate 8 0) = .ok (n, events) ∧
      n.step.machine.registers = m.step.machine.registers ∧ n.step.verdict = m.step.verdict := by
  have hrom : (#[0xC0, 0x00] : Array UInt8).size ≤ Memory.maxRom := by decide
  obtain ⟨m, n, events, hm, hn, halike⟩ := history_alike hrom (s := { seed := some 0 })
    (t := { wraps := true, speed := 1, jumps := .truncated, seed := some 1 }) (by decide)
    (by decide) rfl (Vector.replicate 8 0) (Vector.replicate 8 0)
  obtain ⟨-, -, -, -, hfetch⟩ := start_of_new hm
  have hnext : m.nextInstruction? = some (.random 0 0) := by
    rw [nextInstruction?, hfetch]
    decide
  obtain ⟨-, hhistory⟩ := halike [.step] (by simp [Operation.IsDriving]) fun q hq => by
    simp only [carriedOut, List.append_nil, carriedOutBy, hnext] at hq
    split at hq
    · obtain rfl := List.mem_singleton.1 hq
      exact fun htells => htells.2 rfl
    · cases hq
  have hstep : Operation.step.InRange := trivial
  have hverdict := ((wellFormed_new hm).perform hstep).1
  have hverdict' := ((wellFormed_new hn).perform hstep).1
  rw [history_cons hverdict, history_cons hverdict'] at hhistory
  obtain ⟨hfirst, -⟩ := List.forall₂_cons.1 hhistory
  have hregisters := congrArg Machine.registers hfirst.machine.rest
  exact ⟨m, n, events, hm, hn, hregisters, hfirst.verdict⟩

end Machine

end Chip8
