/-! # The call stack

    Sixteen slots for return addresses and a pointer to the one last used. The pointer moves up
    before a slot is written, so slot 0 is never used and fifteen calls nest. A return leaves its
    slot as it is; `entries` is the part of the stack that still counts, newest first. -/

namespace Chip8

/-- Return addresses and the number of them in use. -/
structure CallStack where
  slots : Vector UInt16 16
  pointer : UInt8
  deriving DecidableEq

namespace CallStack

/-- Number of slots. -/
def size : Nat := 16

/-- No call in progress. -/
def empty : CallStack := ⟨Vector.replicate 16 0, 0⟩

/-- Enters a call that will return to `a`, unless all slots are taken. -/
def push? (s : CallStack) (a : UInt16) : Option CallStack :=
  if h : s.pointer.toNat + 1 < 16 then
    some ⟨s.slots.set (s.pointer.toNat + 1) a, s.pointer + 1⟩
  else none

/-- The slot that the pointer selects, if it is a slot. -/
def top? (s : CallStack) : Option UInt16 := s.slots[s.pointer.toNat]?

/-- Leaves the innermost call. -/
def drop (s : CallStack) : CallStack := { s with pointer := s.pointer - 1 }

/-- Slots `n` down to 1. -/
def slotsDown (slots : Vector UInt16 16) : Nat → List UInt16
  | 0 => []
  | n + 1 => slots[n + 1]?.getD 0 :: slotsDown slots n

/-- The return addresses of the calls in progress, innermost first. -/
def entries (s : CallStack) : List UInt16 := slotsDown s.slots s.pointer.toNat

/-! ### What the operations do to the entries -/

theorem slotsDown_set (slots : Vector UInt16 16) {k : Nat} (hk : k < 16) (a : UInt16) :
    ∀ {n : Nat}, n < k → slotsDown (slots.set k a) n = slotsDown slots n
  | 0, _ => rfl
  | n + 1, h => by
    rw [slotsDown, slotsDown, slotsDown_set slots hk a (by omega)]
    simp [show k ≠ n + 1 by omega]

theorem entries_push? {s t : CallStack} {a : UInt16} (h : s.push? a = some t) :
    t.entries = a :: s.entries := by
  unfold push? at h
  split at h
  · rename_i hp
    cases h
    have e : (s.pointer + 1).toNat = s.pointer.toNat + 1 := by simp; omega
    simp only [entries, e, slotsDown, slotsDown_set _ hp a (Nat.lt_succ_self _)]
    simp [hp]
  · cases h

theorem entries_eq_cons_drop {s : CallStack} {a : UInt16} (h : s.pointer ≠ 0)
    (ht : s.top? = some a) : s.entries = a :: s.drop.entries := by
  have hp : 0 < s.pointer.toNat := by
    rw [Nat.pos_iff_ne_zero]
    exact fun e => h (UInt8.toNat_inj.1 e)
  have e : s.pointer.toNat = (s.pointer - 1).toNat + 1 := by
    rw [UInt8.toNat_sub_of_le _ _ (by rw [UInt8.le_iff_toNat_le]; exact hp)]
    simp; omega
  rw [top?, e] at ht
  rw [entries, e, slotsDown, ht]
  rfl

end CallStack

end Chip8
