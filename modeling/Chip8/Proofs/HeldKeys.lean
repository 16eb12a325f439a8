import Chip8.Proofs.Turns
import Chip8.Proofs.Waiting

/-! # Held keys

    A terminal reports presses but no releases, so a session keeps a table of the keys that are
    held, and tells its machine what changes in it. The two never drift apart: a turn presses just
    the keys that come into the table and releases just those that leave it, so each press is of a
    key that is up and each release of one that is down. Such calls are never refused, and those for
    one key alternate. Only a press ends a wait, so a machine that waits goes on when a key is typed
    that is not in the table.

    The calls of a turn are listed beside what the turn does, function by function. -/

namespace Chip8

namespace Operation

/-- Whether an operation is a step, presses a key that is up, or releases one that is down. -/
def Fits (m : Machine) : Operation → Prop
  | .step => True
  | .press key => key.toNat < 16 ∧ m.isKeyDown key = false
  | .release key => m.isKeyDown key = true
  | .execute _ | .executeAll _ | .load _ => False

/-- Where an operation moves a key, if it does: `true` is down. -/
def edge? (key : UInt8) : Operation → Option Bool
  | .press other => if other = key then some true else none
  | .release other => if other = key then some false else none
  | _ => none

end Operation

namespace Machine

/-- Whether operations fit, each at its time. -/
def AllFit (m : Machine) : List Operation → Prop
  | [] => True
  | op :: ops => op.Fits m ∧ (m.perform op).machine.AllFit ops

/-- The moves of a key. -/
def edges (key : UInt8) (ops : List Operation) : List Bool := ops.filterMap (Operation.edge? key)

variable {m : Machine} {op : Operation} {ops : List Operation} {key : UInt8}

theorem lt_of_isKeyDown (h : m.isKeyDown key = true) : key.toNat < 16 := by
  by_contra hkey
  rw [isKeyDown_of_le m (Nat.le_of_not_lt hkey)] at h
  cases h

/-! ### Calls that fit -/

/-- What a press of a key that exists does to the keypad. -/
theorem keypad_press (h : m.WellFormed) (hkey : key.toNat < 16) :
    (m.press key).machine.isWaiting = false ∧
      ∀ other, (m.press key).machine.isKeyDown other = (key == other || m.isKeyDown other) := by
  have hpressed := pressed m key
  have hfault := (h.of_pressed hpressed).1
  have hpress : m.keypad.press key = .ok _ := dif_pos hkey
  generalize m.press key = o at hpressed hfault
  cases hpressed with
  | ignored hle => exact absurd hkey (Nat.not_lt.2 hle)
  | noticed | resumed => exact ⟨rfl, Keypad.isDown_press hpress⟩
  | fault => exact absurd rfl hfault

/-- What a release of a key that exists does to the keypad. -/
theorem keypad_release (m : Machine) (hkey : key.toNat < 16) :
    (m.release key).machine.isWaiting = m.isWaiting ∧
      ∀ other, (m.release key).machine.isKeyDown other = (key != other && m.isKeyDown other) := by
  have hreleased := released m key
  have hrelease : m.keypad.release key = .ok _ := dif_pos hkey
  generalize m.release key = o at hreleased
  cases hreleased with
  | ignored hle => exact absurd hkey (Nat.not_lt.2 hle)
  | noticed => exact ⟨rfl, Keypad.isDown_release hrelease⟩

/-- Steps do not move keys. -/
theorem isKeyDown_step (h : m.Bounded) : m.step.machine.isKeyDown key = m.isKeyDown key := by
  rcases (stepped h).cases with ⟨-, -, hmachine, -⟩ | ⟨i, after, -, -, -, heffect, hmachine, -⟩
  · rw [hmachine]
  · rw [hmachine, isKeyDown, keypad_count]
    rcases keypad_of_changed (changed_of_effect heffect) with hkept | ⟨x, -, hawait⟩
    · rw [hkept]
      rfl
    · rw [hawait]
      rfl

theorem isKeyDown_of_fits (h : m.WellFormed) (hfit : op.Fits m) :
    (m.perform op).machine.isKeyDown key = (op.edge? key).getD (m.isKeyDown key) := by
  cases op with
  | step => exact isKeyDown_step h.toBounded
  | press other =>
    rw [perform, (keypad_press h hfit.1).2, Operation.edge?]
    by_cases hkey : other = key <;> simp [hkey]
  | release other =>
    rw [perform, (m.keypad_release (lt_of_isKeyDown hfit)).2, Operation.edge?]
    by_cases hkey : other = key <;> simp [hkey]
  | execute | executeAll | load => cases hfit

/-- A key is moved from where it is. -/
theorem edge?_ne_of_fits (hfit : op.Fits m) : op.edge? key ≠ some (m.isKeyDown key) := by
  cases op with
  | press other =>
    rw [Operation.edge?]
    split
    · rename_i hkey
      rw [← hkey, hfit.2]
      nofun
    · nofun
  | release other =>
    rw [Operation.edge?]
    split
    · rename_i hkey
      rw [← hkey, show m.isKeyDown other = true from hfit]
      nofun
    · nofun
  | _ => nofun

theorem inRange_of_fits (hfit : op.Fits m) : op.InRange := by
  cases op with
  | step | press | release => trivial
  | execute | executeAll | load => cases hfit

/-- A press or a release that fits is done. -/
theorem verdict_of_fits (h : m.WellFormed) (hfit : op.Fits m) (hop : op ≠ .step) :
    (m.perform op).verdict = .done := by
  cases op with
  | step => exact absurd rfl hop
  | press => exact (Terminal.Session.verdict_key h hfit.1).1
  | release => exact (Terminal.Session.verdict_key h (lt_of_isKeyDown hfit)).2
  | execute | executeAll | load => cases hfit

theorem allFit_append (ops ops' : List Operation) :
    m.AllFit (ops ++ ops') ↔ m.AllFit ops ∧ (m.after ops).AllFit ops' := by
  induction ops generalizing m with
  | nil => simp [AllFit]
  | cons op ops ih => simp [AllFit, ih, and_assoc]

theorem AllFit.wellFormed_after (hfit : m.AllFit ops) (h : m.WellFormed) :
    (m.after ops).WellFormed := by
  induction ops generalizing m with
  | nil => exact h
  | cons op ops ih => exact ih hfit.2 (h.perform (inRange_of_fits hfit.1)).2

/-- Among calls that fit, no press and no release fails. -/
theorem AllFit.verdict (hfit : m.AllFit ops) (h : m.WellFormed) {before rest : List Operation}
    (hops : ops = before ++ op :: rest) (hop : op ≠ .step) :
    ((m.after before).perform op).verdict = .done := by
  subst hops
  obtain ⟨hbefore, hop', -⟩ := (allFit_append before (op :: rest)).1 hfit
  exact verdict_of_fits (hbefore.wellFormed_after h) hop' hop

/-- Among calls that fit, the moves of a key alternate. -/
theorem AllFit.isChain_edges (hfit : m.AllFit ops) (h : m.WellFormed) (key : UInt8) :
    List.IsChain (· ≠ ·) (m.isKeyDown key :: edges key ops) := by
  induction ops generalizing m with
  | nil => exact List.isChain_singleton _
  | cons op ops ih =>
    have hrest := ih hfit.2 (h.perform (inRange_of_fits hfit.1)).2
    have hne : op.edge? key ≠ some (m.isKeyDown key) := edge?_ne_of_fits hfit.1
    rw [isKeyDown_of_fits h hfit.1] at hrest
    rw [edges, List.filterMap_cons]
    cases hedge : op.edge? key with
    | none =>
      rw [hedge] at hrest
      exact hrest
    | some down =>
      rw [hedge] at hrest hne
      exact List.isChain_cons_cons.2 ⟨fun heq => hne (congrArg some heq.symm), hrest⟩

end Machine

namespace Terminal

namespace Key

/-- Whether a character is a digit of hexadecimal numbers, in either case. -/
def IsHexDigit (c : Char) : Prop :=
  ('0' ≤ c ∧ c ≤ '9') ∨ ('a' ≤ c ∧ c ≤ 'f') ∨ ('A' ≤ c ∧ c ≤ 'F')

theorem toNat_sub_le {a b c : Char} (h : a ≤ c ∧ c ≤ b) :
    c.toNat - a.toNat ≤ b.toNat - a.toNat :=
  Nat.sub_le_sub_right (UInt32.le_iff_toNat_le.1 h.2) _

theorem toNat_ofNat_lt {n : Nat} (h : n < 16) : (UInt8.ofNat n).toNat < 16 := by
  rwa [UInt8.toNat_ofNat_of_lt' (h.trans (by decide))]

/-- The keys of the keypad are the hexadecimal digits. -/
theorem isHexDigit_of_hexValue? {c : Char} {k : UInt8} (h : hexValue? c = some k) :
    IsHexDigit c ∧ k.toNat < 16 := by
  rw [hexValue?] at h
  split_ifs at h with hdigit hlower hupper
  · cases h
    exact ⟨Or.inl hdigit, toNat_ofNat_lt (lt_of_le_of_lt (toNat_sub_le hdigit) (by decide))⟩
  · cases h
    have hle := Nat.add_le_add_left (toNat_sub_le hlower) 10
    exact ⟨Or.inr (Or.inl hlower), toNat_ofNat_lt (lt_of_le_of_lt hle (by decide))⟩
  · cases h
    have hle := Nat.add_le_add_left (toNat_sub_le hupper) 10
    exact ⟨Or.inr (Or.inr hupper), toNat_ofNat_lt (lt_of_le_of_lt hle (by decide))⟩

theorem exists_char_of_keypad? {key : Key} {k : UInt8} (h : key.keypad? = some k) :
    ∃ c, key = .char c ∧ IsHexDigit c ∧ hexValue? c = some k := by
  cases key with
  | char c => exact ⟨c, rfl, (isHexDigit_of_hexValue? h).1, h⟩
  | _ => cases h

theorem lt_of_keypad? {key : Key} {k : UInt8} (h : key.keypad? = some k) : k.toNat < 16 := by
  obtain ⟨c, -, -, hc⟩ := exists_char_of_keypad? h
  exact (isHexDigit_of_hexValue? hc).2

end Key

namespace Session

/-! ### The calls of a turn -/

/-- The calls for one typed key. -/
def keyCalls (s : Session) (now : Int) (key : Key) : List Operation :=
  if key = Key.quit then []
  else match key.keypad? with
    | none => []
    | some k => if (s.held.press k now).1 then [.press k] else []

/-- The calls for typed keys. -/
def keysCalls (s : Session) (now : Int) : List Key → List Operation
  | [] => []
  | key :: keys =>
    s.keyCalls now key ++
      match s.takeKey now key with
      | (s, none) => s.keysCalls now keys
      | (_, some _) => []

/-- The calls that release keys. -/
def releaseCalls (s : Session) : List UInt8 → List Operation
  | [] => []
  | k :: ks =>
    .release k ::
      match s.after (s.machine.release k) with
      | (s, none) => s.releaseCalls ks
      | (_, some _) => []

/-- The calls of the input part of a turn. -/
def inputCalls (s : Session) (now : Int) (keys : List Key) : List Operation :=
  s.keysCalls now keys ++
    match s.takeKeys now keys with
    | (s, none) =>
      let (due, held) := s.held.expire now
      { s with held }.releaseCalls due
    | (_, some _) => []

/-- The calls of a turn. -/
def turnCalls (s : Session) (now : Int) (keys : List Key) : List Operation :=
  s.inputCalls now keys ++
    match s.input now keys with
    | (_, none) => [.step]
    | (_, some _) => []

/-- The moments of a session with a machine: the calls up to then, the session, and how it ended, if
    it did. Every turn has its time, its keys and its link. -/
inductive Made (m : Machine) : List Operation → Session → Option Ending → Prop where
  | start : Made m [] (Session.start m) none
  | turn {calls : List Operation} {s : Session} (h : Made m calls s none) (now : Int)
      (keys : List Key) (link : Link) :
      Made m (calls ++ s.turnCalls now keys) (s.turn now keys link).session
        (s.turn now keys link).ending

/-- What a typed key can do, with the calls for it. -/
inductive Taken (s : Session) (now : Int) :
    Key → List Operation → Session × Option Ending → Prop where
  | quit : Taken s now Key.quit [] (s, some .quit)
  | ignored {key : Key} (hgoes : key ≠ Key.quit) (hkey : key.keypad? = none) :
      Taken s now key [] (s, none)
  | repeated {key : Key} {k : UInt8} (hgoes : key ≠ Key.quit) (hkey : key.keypad? = some k)
      (hk : k.toNat < 16) (hheld : s.held.isHeld k = true) :
      Taken s now key [] ({ s with held := (s.held.press k now).2 }, none)
  | pressed {key : Key} {k : UInt8} (hgoes : key ≠ Key.quit) (hkey : key.keypad? = some k)
      (hk : k.toNat < 16) (hnew : s.held.isHeld k = false) :
      Taken s now key [.press k]
        ({ s with held := (s.held.press k now).2, machine := (s.machine.press k).machine }, none)

/-- In the middle of a turn, when some keys are still to be released: the keys that are down are
    those and the ones that are held. -/
structure InStep (s : Session) (due : List UInt8) : Prop where
  upToDate : s.UpToDate
  isKeyDown_eq : ∀ key, s.machine.isKeyDown key = (s.held.isHeld key || due.contains key)
  nodup : due.Nodup
  not_held : ∀ key ∈ due, s.held.isHeld key = false

/-- Calls that fit take one session to another. -/
structure Called (s : Session) (calls : List Operation) (s' : Session) : Prop where
  machine : s'.machine = s.machine.after calls
  allFit : s.machine.AllFit calls

variable {s s' s'' : Session} {now : Int} {keys : List Key} {link : Link} {due : List UInt8}
  {calls calls' : List Operation}

theorem Called.trans (h : s.Called calls s') (h' : s'.Called calls' s'') :
    s.Called (calls ++ calls') s'' := by
  constructor
  · rw [h'.machine, h.machine, Machine.after_append]
  · exact (Machine.allFit_append calls calls').2 ⟨h.allFit, h.machine ▸ h'.allFit⟩

theorem Called.refl (s : Session) : s.Called [] s := ⟨rfl, trivial⟩

theorem taken (h : s.machine.WellFormed) (now : Int) (key : Key) :
    Taken s now key (s.keyCalls now key) (s.takeKey now key) := by
  by_cases hgoes : key = Key.quit
  · subst hgoes
    exact .quit
  · rw [Session.takeKey, keyCalls, if_neg hgoes, if_neg hgoes]
    cases hkey : key.keypad? with
    | none => exact .ignored hgoes hkey
    | some k =>
      have hk := Key.lt_of_keypad? hkey
      have hpress := s.held.press_eq now hk
      dsimp only
      cases hheld : s.held.isHeld k with
      | true =>
        rw [hheld, Bool.not_true] at hpress
        rw [hpress]
        exact .repeated hgoes hkey hk hheld
      | false =>
        rw [hheld, Bool.not_false] at hpress
        rw [hpress]
        dsimp only
        rw [after_of_done (verdict_key h hk).1]
        exact .pressed hgoes hkey hk hheld

/-! ### The table and the keypad -/

theorem inStep_nil_iff :
    s.InStep [] ↔ s.UpToDate ∧ ∀ key, s.machine.isKeyDown key = s.held.isHeld key := by
  constructor
  · intro h
    exact ⟨h.upToDate, fun key => by simpa using h.isKeyDown_eq key⟩
  · rintro ⟨hs, heq⟩
    exact ⟨hs, by simpa using heq, .nil, by simp⟩

theorem InStep.takeKey (h : s.InStep []) (now : Int) (key : Key) :
    (s.takeKey now key).1.InStep [] ∧ s.Called (s.keyCalls now key) (s.takeKey now key).1 := by
  obtain ⟨hs, heq⟩ := inStep_nil_iff.1 h
  have hunseen := (hs.takeKey now key).upToDate
  have htaken := taken hs.wellFormed now key
  generalize s.takeKey now key = r, s.keyCalls now key = calls at htaken hunseen
  cases htaken with
  | quit | ignored => exact ⟨h, .refl s⟩
  | @repeated key k hgoes hkey hk hheld =>
    refine ⟨inStep_nil_iff.2 ⟨hunseen, fun other => ?_⟩, rfl, trivial⟩
    rw [KeyHolds.isHeld_press _ _ hk, heq]
    by_cases hother : k = other
    · rw [← hother, hheld, Bool.or_true]
    · rw [beq_eq_false_iff_ne.2 hother, Bool.false_or]
  | @pressed key k hgoes hkey hk hnew =>
    have hup : s.machine.isKeyDown k = false := (heq k).trans hnew
    refine ⟨inStep_nil_iff.2 ⟨hunseen, fun other => ?_⟩, rfl, ⟨hk, hup⟩, trivial⟩
    rw [KeyHolds.isHeld_press _ _ hk, (Machine.keypad_press hs.wellFormed hk).2, heq]

theorem InStep.takeKeys (h : s.InStep []) (now : Int) (keys : List Key) :
    (s.takeKeys now keys).1.InStep [] ∧
      s.Called (s.keysCalls now keys) (s.takeKeys now keys).1 := by
  induction keys generalizing s with
  | nil => exact ⟨h, .refl s⟩
  | cons key keys ih =>
    obtain ⟨hfirst, hcalled⟩ := h.takeKey now key
    rw [Session.takeKeys, keysCalls]
    generalize s.takeKey now key = r at hfirst hcalled
    obtain ⟨s', _ | ending⟩ := r
    · obtain ⟨hrest, hcalled'⟩ := ih hfirst
      exact ⟨hrest, hcalled.trans hcalled'⟩
    · rw [List.append_nil]
      exact ⟨hfirst, hcalled⟩

theorem InStep.expire (h : s.InStep []) (now : Int) :
    InStep { s with held := (s.held.expire now).2 } (s.held.expire now).1 := by
  obtain ⟨hs, heq⟩ := inStep_nil_iff.1 h
  refine ⟨hs.withHeld _, fun key => ?_, s.held.nodup_expire now, fun key => ?_⟩
  · rw [heq, s.held.isHeld_eq_or_mem_expire now]
  · exact KeyHolds.isHeld_of_mem_expire

/-- One key is released. -/
theorem InStep.release {k : UInt8} (h : s.InStep (k :: due)) :
    let s' : Session := { s with machine := (s.machine.release k).machine }
    s.after (s.machine.release k) = (s', none) ∧ s'.InStep due ∧ s.Called [.release k] s' := by
  intro s'
  have hdown : s.machine.isKeyDown k = true := by simp [h.isKeyDown_eq]
  have hk := Machine.lt_of_isKeyDown hdown
  have hdone := (verdict_key h.upToDate.wellFormed hk).2
  have hafter := after_of_done (s := s) hdone
  have hunseen := (h.upToDate.after (.release k) rfl hdone).upToDate
  obtain ⟨hfresh, hnodup⟩ := List.nodup_cons.1 h.nodup
  obtain ⟨hnot, hrest⟩ := List.forall_mem_cons.1 h.not_held
  refine ⟨hafter, ⟨?_, fun key => ?_, hnodup, hrest⟩, rfl, hdown, trivial⟩
  · rw [Machine.perform, hafter] at hunseen
    exact hunseen
  · rw [(s.machine.keypad_release hk).2, h.isKeyDown_eq]
    by_cases hkey : k = key
    · simp [s', ← hkey, hnot, hfresh]
    · simp [s', bne_iff_ne.2 hkey, Ne.symm hkey]

theorem InStep.releaseKeys (h : s.InStep due) :
    (s.releaseKeys due).1.InStep [] ∧ (s.releaseKeys due).2 = none ∧
      s.Called (s.releaseCalls due) (s.releaseKeys due).1 := by
  induction due generalizing s with
  | nil => exact ⟨h, rfl, .refl s⟩
  | cons k due ih =>
    obtain ⟨hafter, hfirst, hcalled⟩ := h.release
    obtain ⟨hrest, hnone, hcalled'⟩ := ih hfirst
    rw [Session.releaseKeys, releaseCalls, hafter]
    exact ⟨hrest, hnone, hcalled.trans hcalled'⟩

theorem InStep.input (h : s.InStep []) (now : Int) (keys : List Key) :
    (s.input now keys).1.InStep [] ∧ s.Called (s.inputCalls now keys) (s.input now keys).1 := by
  obtain ⟨htaken, hcalled⟩ := h.takeKeys now keys
  rw [Session.input, inputCalls]
  generalize s.takeKeys now keys = r at htaken hcalled
  obtain ⟨s', _ | ending⟩ := r
  · obtain ⟨hreleased, -, hcalled'⟩ := (htaken.expire now).releaseKeys
    exact ⟨hreleased, hcalled.trans ⟨hcalled'.machine, hcalled'.allFit⟩⟩
  · rw [List.append_nil]
    exact ⟨htaken, hcalled⟩

/-- A turn that is not ended by its keys makes a step, and leaves the table as it is. -/
theorem session_turn (hinput : s.input now keys = (s', none))
    (hfault : s'.machine.step.verdict ≠ .fault) (link : Link) :
    (s.turn now keys link).session.machine = s'.machine.step.machine ∧
      (s.turn now keys link).session.held = s'.held := by
  rw [Session.turn, hinput]
  dsimp only [Session.after]
  cases hv : s'.machine.step.verdict with
  | fault => exact absurd hv hfault
  | failed => exact ⟨rfl, rfl⟩
  | done => exact session_output _ link

/-- The calls of a turn fit whether or not the terminal fails. -/
theorem InStep.turn (h : s.InStep []) (now : Int) (keys : List Key) (link : Link) :
    ((s.turn now keys link).ending ≠ some .unwritten → (s.turn now keys link).session.InStep []) ∧
      s.Called (s.turnCalls now keys) (s.turn now keys link).session := by
  obtain ⟨hin, hcalled⟩ := h.input now keys
  have hleft := (h.upToDate.turn now keys link).upToDate
  rw [turnCalls]
  rcases hinput : s.input now keys with ⟨s', _ | ending⟩
  · rw [hinput] at hin hcalled
    obtain ⟨hs', heq⟩ := inStep_nil_iff.1 hin
    have hop : Operation.step.InRange := trivial
    obtain ⟨hmachine, hheld⟩ := session_turn hinput (hs'.wellFormed.perform hop).1 link
    refine ⟨fun hwritten => inStep_nil_iff.2 ⟨hleft hwritten, fun key => ?_⟩,
      hcalled.trans ⟨hmachine, trivial, trivial⟩⟩
    rw [hmachine, hheld, Machine.isKeyDown_step hs'.wellFormed.toBounded, heq]
  · rw [hinput] at hin hcalled
    rw [Session.turn, hinput, List.append_nil]
    exact ⟨fun _ => hin, hcalled⟩

/-! ### What ends a wait -/

/-- The turn brings a key that is not in the table when its turn comes, and no `q` before it. -/
def Wakes (s : Session) (now : Int) (keys : List Key) : Prop :=
  ∃ before key rest k, keys = before ++ key :: rest ∧ Key.quit ∉ before ∧
    key.keypad? = some k ∧ (s.takeKeys now before).1.held.isHeld k = false

theorem keypad?_quit : Key.quit.keypad? = none := by decide

theorem isWaiting_takeKey (h : s.machine.WellFormed) (now : Int) (key : Key) :
    (s.takeKey now key).1.machine.isWaiting = true ↔
      s.machine.isWaiting = true ∧ ∀ k, key.keypad? = some k → s.held.isHeld k = true := by
  have htaken := taken h now key
  generalize s.takeKey now key = r, s.keyCalls now key = calls at htaken
  cases htaken with
  | quit => simp [keypad?_quit]
  | ignored hgoes hkey => simp [hkey]
  | repeated hgoes hkey hk hheld => simp [hkey, hheld]
  | pressed hgoes hkey hk hnew => simp [hkey, hnew, (Machine.keypad_press h hk).1]

theorem takeKey_of_ne (h : s.UpToDate) (now : Int) {key : Key} (hkey : key ≠ Key.quit) :
    s.takeKey now key = ((s.takeKey now key).1, none) := by
  have hnone := (h.takeKey now key).ending_eq
  rw [if_neg hkey] at hnone
  exact Prod.ext rfl hnone

theorem takeKeys_cons (h : s.UpToDate) (now : Int) {key : Key} (hkey : key ≠ Key.quit)
    (keys : List Key) :
    s.takeKeys now (key :: keys) = (s.takeKey now key).1.takeKeys now keys ∧
      s.keysCalls now (key :: keys) =
        s.keyCalls now key ++ (s.takeKey now key).1.keysCalls now keys := by
  rw [takeKeys, keysCalls, takeKey_of_ne h now hkey]
  exact ⟨rfl, rfl⟩

/-- Keys up to a `q` are taken in turn. -/
theorem takeKeys_append (h : s.UpToDate) (now : Int) {before : List Key}
    (hbefore : Key.quit ∉ before) (rest : List Key) :
    s.takeKeys now (before ++ rest) = (s.takeKeys now before).1.takeKeys now rest ∧
      s.keysCalls now (before ++ rest) =
        s.keysCalls now before ++ (s.takeKeys now before).1.keysCalls now rest := by
  induction before generalizing s with
  | nil => exact ⟨rfl, rfl⟩
  | cons key before ih =>
    have hkey := (List.ne_of_not_mem_cons hbefore).symm
    obtain ⟨htaken, hcalls⟩ := takeKeys_cons h now hkey before
    obtain ⟨htaken', hcalls'⟩ := takeKeys_cons h now hkey (before ++ rest)
    obtain ⟨htail, htailCalls⟩ :=
      ih (h.takeKey now key).upToDate (List.not_mem_of_not_mem_cons hbefore)
    rw [List.cons_append, htaken, hcalls, htaken', hcalls', htail, htailCalls, List.append_assoc]
    exact ⟨rfl, rfl⟩

theorem wakes_cons_iff (h : s.UpToDate) {key : Key} (hkey : key ≠ Key.quit) :
    s.Wakes now (key :: keys) ↔
      (∃ k, key.keypad? = some k ∧ s.held.isHeld k = false) ∨
        (s.takeKey now key).1.Wakes now keys := by
  constructor
  · rintro ⟨_ | ⟨first, before⟩, other, rest, k, heq, hbefore, hk, hnew⟩
    · cases heq
      exact Or.inl ⟨k, hk, hnew⟩
    · cases heq
      rw [(takeKeys_cons h now hkey before).1] at hnew
      exact Or.inr ⟨before, other, rest, k, rfl, List.not_mem_of_not_mem_cons hbefore, hk, hnew⟩
  · rintro (⟨k, hk, hnew⟩ | ⟨before, other, rest, k, rfl, hbefore, hk, hnew⟩)
    · exact ⟨[], key, keys, k, rfl, List.not_mem_nil, hk, hnew⟩
    · rw [← (takeKeys_cons h now hkey before).1] at hnew
      exact ⟨key :: before, other, rest, k, rfl,
        List.not_mem_cons_of_ne_of_not_mem hkey.symm hbefore, hk, hnew⟩

theorem not_wakes_quit (s : Session) (now : Int) (keys : List Key) :
    ¬ s.Wakes now (Key.quit :: keys) := by
  rintro ⟨_ | ⟨first, before⟩, key, rest, k, heq, hbefore, hk, -⟩
  · cases heq
    cases keypad?_quit.symm.trans hk
  · cases heq
    exact hbefore List.mem_cons_self

/-- Typed keys leave a machine waiting that waits unless one of them wakes it. -/
theorem isWaiting_takeKeys (h : s.UpToDate) (now : Int) (keys : List Key) :
    (s.takeKeys now keys).1.machine.isWaiting = true ↔
      s.machine.isWaiting = true ∧ ¬ s.Wakes now keys := by
  induction keys generalizing s with
  | nil => simp [takeKeys, Wakes]
  | cons key keys ih =>
    by_cases hkey : key = Key.quit
    · subst hkey
      simp [takeKeys, Session.takeKey, not_wakes_quit]
    · rw [(takeKeys_cons h now hkey keys).1, ih (h.takeKey now key).upToDate,
        isWaiting_takeKey h.wellFormed, wakes_cons_iff h hkey]
      simp only [not_or, not_exists, not_and, Bool.not_eq_false, and_assoc]

/-- Releases do not end a wait. -/
theorem InStep.isWaiting_releaseKeys (h : s.InStep due) :
    (s.releaseKeys due).1.machine.isWaiting = s.machine.isWaiting := by
  induction due generalizing s with
  | nil => rfl
  | cons k due ih =>
    obtain ⟨hafter, hfirst, hcalled⟩ := h.release
    have hk := Machine.lt_of_isKeyDown hcalled.allFit.1
    rw [Session.releaseKeys, hafter]
    exact (ih hfirst).trans (s.machine.keypad_release hk).1

/-- The input part of a turn leaves a machine waiting that waits unless a key wakes it. -/
theorem InStep.isWaiting_input (h : s.InStep []) (now : Int) (keys : List Key) :
    (s.input now keys).1.machine.isWaiting = true ↔
      s.machine.isWaiting = true ∧ ¬ s.Wakes now keys := by
  rw [← isWaiting_takeKeys h.upToDate, Session.input]
  have htaken := (h.takeKeys now keys).1
  generalize s.takeKeys now keys = r at htaken
  obtain ⟨s', _ | ending⟩ := r
  · exact Bool.eq_iff_iff.1 (htaken.expire now).isWaiting_releaseKeys
  · exact Iff.rfl

theorem wakes_iff :
    s.Wakes now keys ↔ ∃ before c rest k, keys = before ++ .char c :: rest ∧
      Key.quit ∉ before ∧ Key.IsHexDigit c ∧ Key.hexValue? c = some k ∧
      (s.takeKeys now before).1.held.isHeld k = false := by
  constructor
  · rintro ⟨before, key, rest, k, hkeys, hbefore, hk, hnew⟩
    obtain ⟨c, rfl, hdigit, hc⟩ := Key.exists_char_of_keypad? hk
    exact ⟨before, c, rest, k, hkeys, hbefore, hdigit, hc, hnew⟩
  · rintro ⟨before, c, rest, k, hkeys, hbefore, -, hc, hnew⟩
    exact ⟨before, .char c, rest, k, hkeys, hbefore, hc, hnew⟩

/-- A machine that still waits after the input waits at the end of the turn. -/
theorem session_turn_of_isWaiting (hw : (s.input now keys).1.machine.isWaiting = true) :
    (s.turn now keys link).session.machine = (s.input now keys).1.machine := by
  rcases hinput : s.input now keys with ⟨s', _ | ending⟩
  · rw [hinput] at hw
    have hstep := Machine.step_of_isWaiting hw
    have hfault : s'.machine.step.verdict ≠ .fault := by
      rw [hstep]
      nofun
    rw [(session_turn hinput hfault link).1, hstep]
  · rw [Session.turn, hinput]

/-! ### Ends -/

theorem step_notMem_keysCalls (s : Session) (now : Int) (keys : List Key) :
    Operation.step ∉ s.keysCalls now keys := by
  induction keys generalizing s with
  | nil => exact List.not_mem_nil
  | cons key keys ih =>
    have hfirst : Operation.step ∉ s.keyCalls now key := by
      rw [keyCalls]
      split
      · exact List.not_mem_nil
      · split
        · exact List.not_mem_nil
        · split <;> simp
    rw [keysCalls]
    generalize s.takeKey now key = r
    obtain ⟨s', _ | ending⟩ := r
    · simp [hfirst, ih]
    · simp [hfirst]

/-- A `q` ends the turn: the keys before it have been taken, and nothing else has been done. -/
theorem turn_of_quit (h : s.UpToDate) (now : Int) {before : List Key}
    (hbefore : Key.quit ∉ before) (rest : List Key) (link : Link) :
    s.takeKeys now before = ((s.turn now (before ++ Key.quit :: rest) link).session, none) ∧
      (s.turn now (before ++ Key.quit :: rest) link).ending = some .quit ∧
      s.turnCalls now (before ++ Key.quit :: rest) = s.keysCalls now before := by
  obtain ⟨htaken, hcalls⟩ := takeKeys_append h now hbefore (Key.quit :: rest)
  have hnone := (h.takeKeys now before).ending_eq
  rw [if_neg hbefore] at hnone
  have hquit (s' : Session) : s'.takeKeys now (Key.quit :: rest) = (s', some .quit) ∧
      s'.keysCalls now (Key.quit :: rest) = [] := ⟨rfl, rfl⟩
  have hinput : s.input now (before ++ Key.quit :: rest) =
      ((s.takeKeys now before).1, some .quit) := by
    rw [Session.input, htaken, (hquit _).1]
  have hinputCalls : s.inputCalls now (before ++ Key.quit :: rest) = s.keysCalls now before := by
    rw [inputCalls, htaken, hcalls, (hquit _).1, (hquit _).2, List.append_nil, List.append_nil]
  rw [Session.turn, turnCalls, hinput, hinputCalls, List.append_nil]
  exact ⟨Prod.ext rfl hnone, rfl, rfl⟩

/-- A turn without `q` makes a step, and goes on if that is done and what it draws is taken. -/
theorem turn_of_goes (h : s.UpToDate) (now : Int) {keys : List Key} (hgoes : Key.quit ∉ keys)
    (link : Link) :
    let step := (s.input now keys).1.machine.step
    let t := s.turn now keys link
    s.turnCalls now keys = s.inputCalls now keys ++ [.step] ∧
      ((∃ e, step.verdict = .failed e ∧ t.ending = some (.failed e)) ∨
        (step.verdict = .done ∧
          (t.ending = none ∨ ¬ link.Works ∧ t.ending = some .unwritten))) := by
  intro step t
  have hunseen := h.input now keys
  have hnone := hunseen.ending_eq
  rw [if_neg hgoes] at hnone
  obtain ⟨-, hfailed, hdone⟩ := (h.turn now keys link).outcome
  refine ⟨?_, ?_⟩
  · rw [turnCalls, show s.input now keys = ((s.input now keys).1, none) from Prod.ext rfl hnone]
  · have hop : Operation.step.InRange := trivial
    have hfault := (hunseen.upToDate.wellFormed.perform hop).1
    cases hv : step.verdict with
    | fault => exact absurd hv hfault
    | failed e => exact Or.inl ⟨e, rfl, (hfailed hgoes e hv).1⟩
    | done =>
      obtain ⟨-, pixels, -, ⟨hnone, -⟩ | ⟨hlink, hunwritten, -⟩⟩ := hdone hgoes hv
      · exact Or.inr ⟨rfl, Or.inl hnone⟩
      · exact Or.inr ⟨rfl, Or.inr ⟨hlink, hunwritten⟩⟩

/-- At a terminal that takes what is written, a session ends by `q` or by a step that fails. -/
theorem ending_turn_of_works (h : s.UpToDate) (now : Int) (keys : List Key) (hlink : link.Works)
    {why : Ending} (hwhy : (s.turn now keys link).ending = some why) :
    (Key.quit ∈ keys ∧ why = .quit) ∨
      (Key.quit ∉ keys ∧
        ∃ e, (s.input now keys).1.machine.step.verdict = .failed e ∧ why = .failed e) := by
  by_cases hquit : Key.quit ∈ keys
  · have hended := ((h.turn now keys link).outcome.1 hquit).1
    exact Or.inl ⟨hquit, Option.some.inj (hwhy.symm.trans hended)⟩
  · rcases (turn_of_goes h now hquit link).2 with ⟨e, he, hended⟩ | ⟨-, hended | ⟨hfails, -⟩⟩
    · exact Or.inr ⟨hquit, e, he, Option.some.inj (hwhy.symm.trans hended)⟩
    · cases hwhy.symm.trans hended
    · exact absurd hlink hfails

/-! ### Sessions -/

theorem inStep_start {rom : Array UInt8} {settings : Settings} {entropy : ChaCha.Key}
    {m : Machine} {events : List Event}
    (hnew : Machine.new rom settings entropy = .ok (m, events)) :
    (Session.start m).InStep [] ∧ ∀ key, m.isKeyDown key = false := by
  have hup (key : UInt8) : m.isKeyDown key = false := by
    obtain ⟨-, -, rfl, -⟩ := Machine.new_eq_ok_iff.1 hnew
    exact Keypad.isDown_empty key
  refine ⟨inStep_nil_iff.2 ⟨upToDate_start hnew, fun key => ?_⟩, hup⟩
  exact (hup key).trans (KeyHolds.isHeld_empty holdTime key).symm

theorem Made.inStep {m : Machine} (hstart : (Session.start m).InStep [])
    {ending : Option Ending} (h : Made m calls s ending) :
    (ending ≠ some .unwritten → s.InStep []) ∧ (Session.start m).Called calls s := by
  induction h with
  | start => exact ⟨fun _ => hstart, .refl _⟩
  | turn h now keys link ih =>
    obtain ⟨hs, hcalled⟩ := ih
    obtain ⟨hnext, hcalled'⟩ := (hs nofun).turn now keys link
    exact ⟨hnext, hcalled.trans hcalled'⟩

/-- The moments of a session are the same with what was written and with the calls. -/
theorem exists_reached_iff_exists_made {m : Machine} {ending : Option Ending} :
    (∃ ws, Reached m ws s ending) ↔ ∃ calls, Made m calls s ending := by
  constructor
  · rintro ⟨ws, h⟩
    induction h with
    | start => exact ⟨[], .start⟩
    | turn h now keys link ih =>
      obtain ⟨calls, hmade⟩ := ih
      exact ⟨_, hmade.turn now keys link⟩
  · rintro ⟨calls, h⟩
    induction h with
    | start => exact ⟨_, .start⟩
    | turn h now keys link ih =>
      obtain ⟨ws, hreached⟩ := ih
      exact ⟨_, hreached.turn now keys link⟩

/-- The keypad of the machine and the table of held keys never drift apart. At any moment of a
    session, whatever the program, the keys and the times, and whatever becomes of what is written,
    the machine has been brought there by its calls: steps, presses, none of which was refused, and
    releases, none of which was refused either; and the moves of each key alternate, the first one
    being a press. After the input of a turn that `q` does not end, the keys that are down are those
    that are held. A machine that waits goes on in a turn if, up to any `q`, a digit is typed whose
    key is not held at that moment, and otherwise waits at its end. At a `q` all keys before it have
    been taken, and nothing else is done. In any other turn a step is made, and the session ends if
    it fails. On the one assumption that the terminal takes what is written, these are the only ends
    of a session. -/
theorem keys_in_step {rom : Array UInt8} {settings : Settings} {entropy : ChaCha.Key}
    {m : Machine} {events : List Event}
    (hnew : Machine.new rom settings entropy = .ok (m, events)) {calls : List Operation}
    {s : Session} {ending : Option Ending} (h : Made m calls s ending) :
    s.machine = m.after calls ∧
    (∀ before op rest, calls = before ++ op :: rest → op ≠ .step →
      ((m.after before).perform op).verdict = .done) ∧
    (∀ key, List.IsChain (· ≠ ·) (false :: Machine.edges key calls)) ∧
    ∀ (now : Int) (keys : List Key) (link : Link), ending = none →
      let input := s.input now keys
      let step := input.1.machine.step
      let t := s.turn now keys link
      (Key.quit ∉ keys → ∀ key : UInt8, key.toNat < 16 →
        (input.1.machine.isKeyDown key = true ↔ input.1.held.isHeld key = true)) ∧
      (s.machine.isWaiting = true →
        (input.1.machine.isWaiting = false ↔
          ∃ before c rest k, keys = before ++ .char c :: rest ∧ Key.quit ∉ before ∧
            Key.IsHexDigit c ∧ Key.hexValue? c = some k ∧
            (s.takeKeys now before).1.held.isHeld k = false) ∧
        (input.1.machine.isWaiting = true → t.session.machine = input.1.machine)) ∧
      (∀ before rest, keys = before ++ Key.quit :: rest → Key.quit ∉ before →
        s.takeKeys now before = (t.session, none) ∧ t.ending = some .quit ∧
        s.turnCalls now keys = s.keysCalls now before ∧
        Operation.step ∉ s.turnCalls now keys) ∧
      (Key.quit ∉ keys →
        s.turnCalls now keys = s.inputCalls now keys ++ [.step] ∧
        ((∃ e, step.verdict = .failed e ∧ t.ending = some (.failed e)) ∨
          (step.verdict = .done ∧
            (t.ending = none ∨ ¬ link.Works ∧ t.ending = some .unwritten)))) ∧
      (link.Works → ∀ why, t.ending = some why →
        (Key.quit ∈ keys ∧ why = .quit) ∨
          (Key.quit ∉ keys ∧ ∃ e, step.verdict = .failed e ∧ why = .failed e)) := by
  obtain ⟨hstart, hup⟩ := inStep_start hnew
  have hm := Machine.wellFormed_new hnew
  obtain ⟨hs, hmachine, hfit⟩ := h.inStep hstart
  refine ⟨hmachine, fun before op rest hcalls hop => hfit.verdict hm hcalls hop, fun key => ?_,
    fun now keys link hnone => ?_⟩
  · rw [← hup key]
    exact hfit.isChain_edges hm key
  · intro input step t
    subst hnone
    replace hs := hs nofun
    obtain ⟨hin, -⟩ := hs.input now keys
    refine ⟨fun _ key _ => ?_, fun hw => ⟨?_, session_turn_of_isWaiting⟩,
      fun before rest hkeys hbefore => ?_, fun hgoes => turn_of_goes hs.upToDate now hgoes link,
      fun hlink why hwhy => ending_turn_of_works hs.upToDate now keys hlink hwhy⟩
    · rw [(inStep_nil_iff.1 hin).2 key]
    · rw [← wakes_iff, ← Bool.not_eq_true, hs.isWaiting_input now keys, not_and_not_right]
      exact ⟨fun hwakes => hwakes hw, fun hwakes _ => hwakes⟩
    · subst hkeys
      obtain ⟨htaken, hquit, hcalls⟩ := turn_of_quit hs.upToDate now hbefore rest link
      exact ⟨htaken, hquit, hcalls, hcalls ▸ s.step_notMem_keysCalls now before⟩

/-- A program that begins with a wait: it comes to wait, and an `A` before a `q` wakes it. -/
theorem keys_in_step_wait :
    ∃ m events, Machine.new #[0xF5, 0x0A] {} (Vector.replicate 8 0) = .ok (m, events) ∧
      ∃ calls s, Made m calls s none ∧ s.machine.isWaiting = true ∧
        let keys := [Key.char 'A', Key.quit]
        (s.input 10 keys).1.machine.isWaiting = false ∧
        (s.turn 10 keys Link.working).ending = some .quit := by
  obtain ⟨m, events, hnew⟩ : ∃ m events,
      Machine.new #[0xF5, 0x0A] {} (Vector.replicate 8 0) = .ok (m, events) :=
    ⟨_, _, Machine.new_eq_ok_iff.2 ⟨by decide, by decide, rfl, rfl⟩⟩
  refine ⟨m, events, hnew, ?_⟩
  have hm := (Machine.wellFormed_new hnew).toBounded
  obtain ⟨-, -, -, hnone, hfetch⟩ := Machine.start_of_new hnew
  have hopens : m.Opens 5 := by
    refine ⟨Machine.isWaiting_eq_false_iff.2 hnone, ?_⟩
    rw [Machine.nextInstruction?, hfetch]
    decide
  obtain ⟨hdone, hawaited⟩ := hopens.step hm
  have hinput : (Session.start m).input 0 [] = (Session.start m, none) := by
    have hexpire : (KeyHolds.empty holdTime).expire 0 = ([], KeyHolds.empty holdTime) := by
      decide +kernel
    simp only [Session.input, takeKeys, Session.start, hexpire, releaseKeys]
  have hworks : Link.working.Works := fun _ => rfl
  -- the first turn, in which nothing is typed, opens the wait
  obtain ⟨calls, s, hmade, hw, hfree⟩ : ∃ calls s, Made m calls s none ∧
      s.machine.isWaiting = true ∧ s.held.isHeld 10 = false := by
    have hfault : (Session.start m).machine.step.verdict ≠ .fault := by
      intro hfault
      cases hdone.symm.trans hfault
    obtain ⟨hmachine, hheld⟩ := session_turn hinput hfault Link.working
    have hmade := Made.turn (.start (m := m)) 0 [] Link.working
    have hending : ((Session.start m).turn 0 [] Link.working).ending = none := by
      obtain ⟨-, -, -, hturn⟩ := keys_in_step hnew .start
      obtain ⟨-, -, -, -, hends⟩ := hturn 0 [] Link.working rfl
      refine Option.eq_none_iff_forall_ne_some.2 fun why hwhy => ?_
      obtain ⟨hquit, -⟩ | ⟨-, e, he, -⟩ := hends hworks why hwhy
      · cases hquit
      · rw [hinput] at he
        cases hdone.symm.trans he
    rw [hending] at hmade
    refine ⟨_, _, hmade, ?_, ?_⟩
    · rw [hmachine]
      exact Machine.isWaiting_of_awaited hawaited
    · rw [hheld]
      exact KeyHolds.isHeld_empty holdTime 10
  obtain ⟨-, -, -, hturn⟩ := keys_in_step hnew hmade
  obtain ⟨-, hwaits, hquit, -⟩ := hturn 10 [Key.char 'A', Key.quit] Link.working rfl
  have hdigit : Key.IsHexDigit 'A' := Or.inr (Or.inr ⟨by decide, by decide⟩)
  have hten : Key.hexValue? 'A' = some 10 := by decide
  have hwoken := (hwaits hw).1.2
    ⟨[], 'A', [Key.quit], 10, rfl, List.not_mem_nil, hdigit, hten, hfree⟩
  exact ⟨calls, s, hmade, hw, hwoken, (hquit [Key.char 'A'] [] rfl (by decide)).2.1⟩

end Session

end Terminal

end Chip8
