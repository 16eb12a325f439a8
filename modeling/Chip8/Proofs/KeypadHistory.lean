import Mathlib.Data.List.Induction
import Chip8.Keypad
import Chip8.Proofs.Histories

/-! # The keypad and its history

    The keypad has no more to tell than the calls made to it. A key is down if the latest of its
    presses and releases is a press. A wait is open if no key was pressed since the latest wait was
    begun, and then the next press ends it, in favour of the register of the latest wait. Calls for
    keys that do not exist are refused, and leave no trace in all this: an open wait stays open.

    Each fact is read off the latest call, and holds of all calls by induction from the first
    one. -/

namespace Chip8.Keypad

open History (Since after answers)

/-- What a keypad is asked to do. -/
inductive Call where
  | press (key : UInt8)
  | release (key : UInt8)
  | await (x : UInt8)
  deriving DecidableEq

namespace Call

/-- The key that a call presses or releases. -/
def key? : Call → Option UInt8
  | press key | release key => some key
  | await _ => none

/-- The register for which a call begins to wait. -/
def awaits? : Call → Option UInt8
  | press _ | release _ => none
  | await x => some x

/-- Whether a call leaves a wait open that was open: all do but presses of the keys there are. -/
def KeepsWait (c : Call) : Prop := ∀ key, c = press key → 16 ≤ key.toNat

end Call

/-- Makes a call. A press that ends a wait answers with the register that waited; a call that is
    refused answers with its error, and leaves the keypad as it is. -/
def call (k : Keypad) : Call → Except Error (Option UInt8) × Keypad
  | .press key =>
    match k.press key with
    | .ok (x, l) => (.ok x, l)
    | .error e => (.error e, k)
  | .release key =>
    match k.release key with
    | .ok l => (.ok none, l)
    | .error e => (.error e, k)
  | .await x => (.ok none, k.await x)

/-- What a call comes to: a press, a release or a wait, or nothing if there is no such key. -/
inductive Called (k : Keypad) : Call → Except Error (Option UInt8) × Keypad → Prop where
  | pressed {key : UInt8} (hkey : key.toNat < 16) :
    Called k (.press key) (.ok k.awaited, ⟨k.pressed.set key.toNat true, none⟩)
  | released {key : UInt8} (hkey : key.toNat < 16) :
    Called k (.release key) (.ok none, { k with pressed := k.pressed.set key.toNat false })
  | waits {x : UInt8} : Called k (.await x) (.ok none, k.await x)
  | refused {c : Call} {key : UInt8} (hc : c.key? = some key) (hkey : 16 ≤ key.toNat) :
    Called k c (.error (.invalidKey key), k)

variable {k : Keypad} {key : UInt8} {c : Call} {calls : List Call}

/-! ### One call -/

theorem called (k : Keypad) (c : Call) : Called k c (k.call c) := by
  cases c with
  | press key =>
    by_cases hkey : key.toNat < 16
    · rw [call, press, dif_pos hkey]
      exact .pressed hkey
    · rw [call, press, dif_neg hkey]
      exact .refused rfl (Nat.le_of_not_lt hkey)
  | release key =>
    by_cases hkey : key.toNat < 16
    · rw [call, release, dif_pos hkey]
      exact .released hkey
    · rw [call, release, dif_neg hkey]
      exact .refused rfl (Nat.le_of_not_lt hkey)
  | await => exact .waits

theorem call_of_le (k : Keypad) (hc : c.key? = some key) (hkey : 16 ≤ key.toNat) :
    k.call c = (.error (.invalidKey key), k) := by
  have hcalled := called k c
  generalize k.call c = r at hcalled
  cases hcalled with
  | refused hc' =>
    cases hc.symm.trans hc'
    rfl
  | pressed hlt | released hlt =>
    cases hc
    exact absurd hlt (Nat.not_lt.2 hkey)
  | waits => cases hc

theorem call_press (k : Keypad) (hkey : key.toNat < 16) :
    (k.call (.press key)).1 = .ok k.awaited := by
  rw [call, press, dif_pos hkey]

theorem lt_of_isDown (h : k.isDown key = true) : key.toNat < 16 := by
  by_contra hkey
  rw [k.isDown_of_le (Nat.le_of_not_lt hkey)] at h
  cases h

/-- Where a key is after a call: where the call puts it, or where it was. -/
theorem isDown_call (k : Keypad) (c : Call) (hkey : key.toNat < 16) :
    (k.call c).2.isDown key = if c.key? = some key then c = .press key else k.isDown key := by
  have hcalled := called k c
  generalize k.call c = r at hcalled
  cases hcalled with
  | waits => rfl
  | refused hc hle =>
    rw [if_neg]
    intro hc'
    cases hc.symm.trans hc'
    exact absurd hkey (Nat.not_lt.2 hle)
  | @pressed other hother =>
    have hpress : k.press other = .ok _ := dif_pos hother
    rw [isDown_press hpress]
    by_cases heq : other = key <;> simp [heq, Call.key?]
  | @released other hother =>
    have hrelease : k.release other = .ok _ := dif_pos hother
    rw [isDown_release hrelease]
    by_cases heq : other = key <;> simp [heq, Call.key?]

theorem isWaiting_call (k : Keypad) (c : Call) :
    (k.call c).2.isWaiting = true ↔
      (∃ x, c = .await x) ∨ (c.KeepsWait ∧ k.isWaiting = true) := by
  have hcalled := called k c
  generalize k.call c = r at hcalled
  cases hcalled with
  | waits => simp [await, isWaiting]
  | released => simp [isWaiting, Call.KeepsWait]
  | @pressed key hkey => simp [isWaiting, Call.KeepsWait, Nat.not_le.2 hkey]
  | refused hc hle =>
    cases c with
    | await => cases hc
    | press | release =>
      cases hc
      simp [Call.KeepsWait, hle]

/-- If a wait is open after a call, it was begun by the call or was open before. -/
theorem awaited_call (k : Keypad) (c : Call) :
    (k.call c).2.awaited = none ∨ (k.call c).2.awaited = c.awaits?.or k.awaited := by
  have hcalled := called k c
  generalize k.call c = r at hcalled
  cases hcalled with
  | pressed => exact Or.inl rfl
  | released | waits => exact Or.inr rfl
  | refused hc =>
    cases c with
    | await => cases hc
    | press | release => exact Or.inr rfl

/-! ### All calls -/

theorem isDown_after (hkey : key.toNat < 16) :
    (after call empty calls).isDown key = true ↔
      (calls.filter (·.key? = some key)).getLast? = some (.press key) := by
  induction calls using List.reverseRecOn with
  | nil => simp [isDown_empty]
  | append_singleton calls c ih =>
    rw [History.after_concat, isDown_call _ _ hkey, List.filter_append]
    by_cases hc : c.key? = some key <;> simp [hc, ih]

theorem isWaiting_after :
    (after call empty calls).isWaiting = true ↔
      ∃ x, Since Call.KeepsWait (.await x) calls := by
  induction calls using List.reverseRecOn with
  | nil => simp [isWaiting, empty, History.not_since_nil]
  | append_singleton calls c ih =>
    rw [History.after_concat, isWaiting_call, ih]
    simp only [History.since_concat_iff, exists_or, exists_and_left]

/-- Only the latest wait can be open. -/
theorem awaited_after (calls : List Call) :
    (after call empty calls).awaited = none ∨
      (after call empty calls).awaited = (calls.filterMap Call.awaits?).getLast? := by
  -- a call that does not end the wait begins one, or leaves the latest as before
  induction calls using List.reverseRecOn with
  | nil => exact Or.inl rfl
  | append_singleton calls c ih =>
    rw [History.after_concat, List.filterMap_append, List.getLast?_append]
    rcases awaited_call (after call empty calls) c with hnone | hsome
    · exact Or.inl hnone
    · rw [hsome]
      cases hc : c.awaits? with
      | none => simpa [hc] using ih
      | some x => simp [hc]

/-- The keypad is told by its history. After any calls to a new keypad, the keys that are down are
    those from 0 to 15 of whose presses and releases the latest is a press. The keypad waits if
    since some wait no key from 0 to 15 was pressed; a press of such a key then answers with the
    register of the latest wait, and with none otherwise. A press or a release of any other key is
    refused with that key, and could be left out: no answer to another call, before it or after it,
    is different, and neither is the keypad. -/
theorem keypad_follows_calls (calls : List Call) :
    let k := after call empty calls
    (∀ key, k.isDown key = true ↔
      key.toNat ≤ 15 ∧ (calls.filter (·.key? = some key)).getLast? = some (.press key)) ∧
    (k.isWaiting = true ↔
      ∃ x, Since (fun c => ∀ key, c = .press key → 16 ≤ key.toNat) (.await x) calls) ∧
    (∀ key, key.toNat ≤ 15 →
      (k.isWaiting = true → ∃ x, (calls.filterMap Call.awaits?).getLast? = some x ∧
        (k.call (.press key)).1 = .ok (some x)) ∧
      (k.isWaiting = false → (k.call (.press key)).1 = .ok none)) ∧
    ∀ c key rest, c.key? = some key → 16 ≤ key.toNat →
      (answers call empty (calls ++ c :: rest))[calls.length]? = some (.error (.invalidKey key)) ∧
      (answers call empty (calls ++ c :: rest)).eraseIdx calls.length =
        answers call empty (calls ++ rest) ∧
      after call empty (calls ++ c :: rest) = after call empty (calls ++ rest) := by
  intro k
  refine ⟨fun key => ?_, isWaiting_after, fun key hkey => ?_,
    fun c key rest hc hkey => ?_⟩
  · constructor
    · intro hdown
      have hkey := lt_of_isDown hdown
      exact ⟨Nat.le_of_lt_succ hkey, (isDown_after hkey).1 hdown⟩
    · rintro ⟨hkey, hlast⟩
      exact (isDown_after (Nat.lt_succ_of_le hkey)).2 hlast
  · have hpress := k.call_press (Nat.lt_succ_of_le hkey)
    constructor
    · intro hwaits
      obtain ⟨x, hx⟩ := Option.isSome_iff_exists.1 hwaits
      rcases awaited_after calls with hnone | hlatest
      · cases hx.symm.trans hnone
      · exact ⟨x, hlatest.symm.trans hx, hpress.trans (congrArg Except.ok hx)⟩
    · intro hready
      have hnone : k.awaited = none :=
        Option.isNone_iff_eq_none.1 (Option.isSome_eq_false_iff.1 hready)
      exact hpress.trans (congrArg Except.ok hnone)
  · have hrefused := k.call_of_le hc hkey
    have hunchanged : (k.call c).2 = k := by rw [hrefused]
    refine ⟨?_, History.answers_of_unchanged hunchanged rest,
      History.after_of_unchanged hunchanged rest⟩
    rw [History.answers_getElem?_append, hrefused]

/-- Two waits and a press of no key between them: the next press is for the second wait. -/
theorem keypad_follows_two_waits :
    let calls : List Call := [.await 1, .press 0x10, .await 5]
    let k := after call empty calls
    k.isWaiting = true ∧ (k.call (.press 3)).1 = .ok (some 5) ∧
      (answers call empty calls)[1]? = some (.error (.invalidKey 0x10)) ∧
      k = after call empty [.await 1, .await 5] := by
  intro calls k
  obtain ⟨-, hwaiting, hpress, -⟩ := keypad_follows_calls calls
  obtain ⟨-, -, -, hrefused⟩ := keypad_follows_calls [.await 1]
  have hwaits : k.isWaiting = true := hwaiting.2 ⟨5, [.await 1, .press 0x10], [], rfl, nofun⟩
  obtain ⟨x, hx, hanswer⟩ := (hpress 3 (by decide)).1 hwaits
  cases hx
  obtain ⟨herror, -, hafter⟩ := hrefused (.press 0x10) 0x10 [.await 5] rfl (by decide)
  exact ⟨hwaits, hanswer, herror, hafter⟩

end Chip8.Keypad
