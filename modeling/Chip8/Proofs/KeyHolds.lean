import Mathlib.Data.List.Chain
import Mathlib.Data.List.Induction
import Mathlib.Data.List.FinRange
import Chip8.Terminal.KeyHolds
import Chip8.Proofs.Histories

/-! # The table of held keys

    A table learns of presses and of the time, and tells when a key begins to be held and when it no
    longer is. All of it follows from the calls made to it: a key is held since its latest press,
    unless an expiry since then came when the press was as old as the timeout. A press of a held key
    counts as the latest one from then on, and so moves the end of the hold, to an earlier time if
    the clock went backwards. What the table tells of one key are the changes of one flag, so
    beginnings and ends alternate. -/

namespace Chip8.Terminal.KeyHolds

open History (Since after answers)

/-- What a table is asked to do. -/
inductive Call where
  | press (key : UInt8) (now : Int)
  | expire (now : Int)
  deriving DecidableEq

/-- What a table answers. -/
inductive Answer where
  | pressed (new : Bool)
  | expired (keys : List UInt8)
  deriving DecidableEq

namespace Call

/-- The time of a call. -/
def time : Call → Int
  | press _ now | expire now => now

/-- Whether a key that was last pressed at `p` is held after a call, if it was before, and since the
    same press: the call presses another key, or lets keys expire that are older. -/
def Keeps (timeout : Nat) (key : UInt8) (p : Int) : Call → Prop
  | press other _ => other ≠ key
  | expire now => max 0 (now - p) < timeout

/-- What an answer tells of a key: that it is held now, or that it no longer is. -/
def edges (key : UInt8) : Call → Answer → List Bool
  | press other _, .pressed true => if other = key then [true] else []
  | expire _, .expired keys => List.replicate (keys.count key) false
  | _, _ => []

end Call

/-- Makes a call. -/
def call (held : KeyHolds) : Call → Answer × KeyHolds
  | .press key now => (.pressed (held.press key now).1, (held.press key now).2)
  | .expire now => (.expired (held.expire now).1, (held.expire now).2)

/-- What answers tell of a key, in their order. -/
def edges (key : UInt8) (calls : List Call) (answers : List Answer) : List Bool :=
  (List.zipWith (Call.edges key) calls answers).flatten

/-- After calls, a key is held since a press at `p`: it was not pressed again, and no expiry came
    when the press was as old as the timeout. -/
def HeldSince (timeout : Nat) (calls : List Call) (key : UInt8) (p : Int) : Prop :=
  key.toNat < 16 ∧ Since (Call.Keeps timeout key p) (.press key p) calls

/-- The clock never goes backwards from a call to a later one. -/
def InOrder (calls : List Call) : Prop := calls.Pairwise fun c d => c.time ≤ d.time

/-- When a key was last pressed, if it is held. -/
def pressed? (held : KeyHolds) (key : UInt8) : Option Int := held.pressedAt[key.toNat]?.join

variable {held : KeyHolds} {key : UInt8} {now p : Int} {timeout : Nat} {calls : List Call}

theorem isHeld_eq (held : KeyHolds) (key : UInt8) :
    held.isHeld key = (held.pressed? key).isSome := rfl

theorem pressed?_empty (timeout : Nat) (key : UInt8) : (empty timeout).pressed? key = none := by
  by_cases hkey : key.toNat < 16 <;> simp [pressed?, empty, hkey]

theorem isHeld_empty (timeout : Nat) (key : UInt8) : (empty timeout).isHeld key = false := by
  rw [isHeld_eq, pressed?_empty]
  rfl

theorem lt_of_pressed? (h : held.pressed? key = some p) : key.toNat < 16 := by
  by_contra hkey
  rw [pressed?, Vector.getElem?_eq_none (Nat.le_of_not_lt hkey)] at h
  cases h

/-! ### Presses -/

/-- A press tells whether the key was not held. -/
theorem press_eq (held : KeyHolds) (now : Int) (hkey : key.toNat < 16) :
    held.press key now = (!held.isHeld key, (held.press key now).2) := by
  rw [press, dif_pos hkey, isHeld, Vector.getElem?_eq_getElem hkey]
  simp

/-- A press of a key that does not exist tells nothing and changes nothing. -/
theorem press_of_le (held : KeyHolds) (now : Int) (hkey : 16 ≤ key.toNat) :
    held.press key now = (false, held) :=
  dif_neg (Nat.not_lt.2 hkey)

theorem lt_of_press_eq_true {held' : KeyHolds} (h : held.press key now = (true, held')) :
    key.toNat < 16 := by
  by_contra hkey
  rw [press_of_le held now (Nat.le_of_not_lt hkey)] at h
  cases h

theorem pressed?_press (held : KeyHolds) (now : Int) (hkey : key.toNat < 16) (other : UInt8) :
    (held.press key now).2.pressed? other =
      if key = other then some now else held.pressed? other := by
  rw [press, dif_pos hkey]
  simp only [pressed?, Vector.getElem?_set, UInt8.toNat_inj]
  split <;> rfl

theorem isHeld_press (held : KeyHolds) (now : Int) (hkey : key.toNat < 16) (other : UInt8) :
    (held.press key now).2.isHeld other = (key == other || held.isHeld other) := by
  rw [isHeld_eq, pressed?_press held now hkey, isHeld_eq]
  by_cases heq : key = other <;> simp [heq]

/-! ### Expiries -/

theorem toNat_ofNat_fin (k : Fin 16) : (UInt8.ofNat k.val).toNat = k.val := by
  rw [UInt8.toNat_ofNat']
  omega

theorem isDue_iff {pressed : Option Int} : held.isDue now pressed = true ↔
    ∃ p, pressed = some p ∧ held.timeout ≤ max 0 (now - p) := by
  cases pressed with
  | none => simp [isDue]
  | some p =>
    simp only [isDue, decide_eq_true_eq, Option.some.injEq, exists_eq_left']
    omega

theorem mem_expire_iff_isDue :
    key ∈ (held.expire now).1 ↔ held.isDue now (held.pressed? key) = true := by
  rw [pressed?]
  simp only [expire, List.mem_map, List.mem_filter, List.mem_finRange, true_and]
  constructor
  · rintro ⟨k, hdue, rfl⟩
    rw [toNat_ofNat_fin, Vector.getElem?_eq_getElem k.isLt]
    exact hdue
  · intro hdue
    by_cases hkey : key.toNat < 16
    · rw [Vector.getElem?_eq_getElem hkey] at hdue
      exact ⟨⟨key.toNat, hkey⟩, hdue, UInt8.ofNat_toNat⟩
    · rw [Vector.getElem?_eq_none (Nat.le_of_not_lt hkey)] at hdue
      cases hdue

/-- The keys that are forgotten are those whose press is old enough. -/
theorem mem_expire_iff : key ∈ (held.expire now).1 ↔
    ∃ p, held.pressed? key = some p ∧ held.timeout ≤ max 0 (now - p) := by
  rw [mem_expire_iff_isDue, isDue_iff]

theorem lt_of_mem_expire (h : key ∈ (held.expire now).1) : key.toNat < 16 := by
  obtain ⟨p, hp, -⟩ := mem_expire_iff.1 h
  exact lt_of_pressed? hp

theorem pairwise_expire (held : KeyHolds) (now : Int) : (held.expire now).1.Pairwise (· < ·) := by
  refine List.pairwise_map.2 (((List.pairwise_lt_finRange 16).filter _).imp fun {k j} hlt => ?_)
  rw [UInt8.lt_iff_toNat_lt, toNat_ofNat_fin, toNat_ofNat_fin]
  exact hlt

theorem nodup_expire (held : KeyHolds) (now : Int) : (held.expire now).1.Nodup :=
  (held.pairwise_expire now).imp UInt8.ne_of_lt

theorem pressed?_expire (held : KeyHolds) (now : Int) (key : UInt8) :
    (held.expire now).2.pressed? key =
      if key ∈ (held.expire now).1 then none else held.pressed? key := by
  have hdue : (held.expire now).2.pressed? key =
      if held.isDue now (held.pressed? key) then none else held.pressed? key := by
    rw [pressed?, pressed?, expire, Vector.getElem?_map]
    rcases held.pressedAt[key.toNat]? with _ | _ | pressed
    · rfl
    · rfl
    · exact Option.join_some
  rw [hdue]
  exact if_congr mem_expire_iff_isDue.symm rfl rfl

theorem isHeld_of_mem_expire (hkey : key ∈ (held.expire now).1) :
    (held.expire now).2.isHeld key = false := by
  rw [isHeld_eq, pressed?_expire, if_pos hkey]
  rfl

/-- A key that is held still is afterwards, or is forgotten. -/
theorem isHeld_eq_or_mem_expire (held : KeyHolds) (now : Int) (key : UInt8) :
    held.isHeld key = ((held.expire now).2.isHeld key || (held.expire now).1.contains key) := by
  rw [isHeld_eq held, isHeld_eq (held.expire now).2, pressed?_expire]
  by_cases hmem : key ∈ (held.expire now).1
  · obtain ⟨p, hp, -⟩ := mem_expire_iff.1 hmem
    simp [hp, hmem]
  · simp [hmem]

/-! ### One call -/

theorem timeout_call (held : KeyHolds) (c : Call) : (held.call c).2.timeout = held.timeout := by
  cases c with
  | press key now =>
    rw [call, press]
    split <;> rfl
  | expire now => rfl

/-- A call that presses a key that does not exist. -/
theorem call_press_of_le (held : KeyHolds) (now : Int) (hkey : 16 ≤ key.toNat) :
    held.call (.press key now) = (.pressed false, held) := by
  rw [call, press_of_le held now hkey]

/-- After a call a key is held since this call, or is held on. -/
theorem pressed?_call (held : KeyHolds) (c : Call) (hkey : key.toNat < 16) :
    (held.call c).2.pressed? key = some p ↔
      c = .press key p ∨ (c.Keeps held.timeout key p ∧ held.pressed? key = some p) := by
  cases c with
  | press other now =>
    by_cases hother : other.toNat < 16
    · rw [call, pressed?_press held now hother, Call.Keeps]
      by_cases heq : other = key <;> simp [heq]
    · have hne : other ≠ key := by
        rintro rfl
        exact hother hkey
      rw [call_press_of_le held now (Nat.le_of_not_lt hother)]
      simp [Call.Keeps, hne]
  | expire now =>
    rw [call, pressed?_expire, Call.Keeps]
    constructor
    · intro hp
      split at hp
      · cases hp
      · rename_i hkept
        refine Or.inr ⟨Int.not_le.1 fun hdue => hkept ?_, hp⟩
        exact mem_expire_iff.2 ⟨p, hp, hdue⟩
    · rintro (hc | ⟨hkeeps, hp⟩)
      · cases hc
      · rwa [if_neg]
        intro hmem
        obtain ⟨q, hq, hdue⟩ := mem_expire_iff.1 hmem
        cases hp.symm.trans hq
        exact absurd hdue (Int.not_le.2 hkeeps)

/-- An answer tells of a key whether the call changes that it is held. -/
theorem edges_call (held : KeyHolds) (c : Call) (key : UInt8) :
    c.edges key (held.call c).1 =
      if (held.call c).2.isHeld key = held.isHeld key then []
      else [(held.call c).2.isHeld key] := by
  cases c with
  | press other now =>
    by_cases hother : other.toNat < 16
    · rw [call, isHeld_press held now hother, press_eq held now hother]
      by_cases heq : other = key
      · subst heq
        cases hheld : held.isHeld other <;> simp [Call.edges]
      · cases held.isHeld other <;> simp [Call.edges, heq]
    · rw [call_press_of_le held now (Nat.le_of_not_lt hother), if_pos rfl]
      rfl
  | expire now =>
    have hkept := held.isHeld_eq_or_mem_expire now key
    simp only [call, Call.edges]
    by_cases hmem : key ∈ (held.expire now).1
    · rw [List.count_eq_one_of_mem (held.nodup_expire now) hmem, hkept]
      simp [isHeld_of_mem_expire hmem, hmem]
    · rw [List.count_eq_zero_of_not_mem hmem, hkept]
      simp [hmem]

/-! ### All calls -/

theorem timeout_after (held : KeyHolds) (calls : List Call) :
    (after call held calls).timeout = held.timeout := by
  induction calls generalizing held with
  | nil => rfl
  | cons c calls ih => rw [History.after_cons, ih, timeout_call]

/-- The table remembers since when a key is held, and nothing else. -/
theorem pressed?_after :
    (after call (empty timeout) calls).pressed? key = some p ↔ HeldSince timeout calls key p := by
  by_cases hkey : key.toNat < 16
  · rw [HeldSince, and_iff_right hkey]
    -- back from the latest call, which presses the key or has to keep it
    induction calls using List.reverseRecOn with
    | nil => simp [pressed?_empty, History.not_since_nil]
    | append_singleton calls c ih =>
      rw [History.after_concat, pressed?_call _ _ hkey, timeout_after, ih, History.since_concat_iff]
      rfl
  · constructor
    · intro hp
      exact absurd (lt_of_pressed? hp) hkey
    · rintro ⟨hlt, -⟩
      exact absurd hlt hkey

theorem isHeld_after :
    (after call (empty timeout) calls).isHeld key = true ↔ ∃ p, HeldSince timeout calls key p := by
  rw [isHeld_eq, Option.isSome_iff_exists]
  exact exists_congr fun p => pressed?_after

theorem mem_expire_after :
    key ∈ ((after call (empty timeout) calls).expire now).1 ↔
      ∃ p, HeldSince timeout calls key p ∧ timeout ≤ max 0 (now - p) := by
  rw [mem_expire_iff, timeout_after]
  exact exists_congr fun p => and_congr_left' pressed?_after

theorem edges_cons (key : UInt8) (held : KeyHolds) (c : Call) (calls : List Call) :
    edges key (c :: calls) (answers call held (c :: calls)) =
      c.edges key (held.call c).1 ++
        edges key calls (answers call (held.call c).2 calls) := by
  simp [edges, answers]

/-- What is told of a key alternates, from how it was to how it is. A call tells of the key just if
    it changes it, so the table that the first call leaves serves the other calls. -/
theorem isChain_edges (held : KeyHolds) (key : UInt8) (calls : List Call) :
    let told := edges key calls (answers call held calls)
    List.IsChain (· ≠ ·) (held.isHeld key :: told) ∧
      told.getLastD (held.isHeld key) = (after call held calls).isHeld key := by
  induction calls generalizing held with
  | nil => exact ⟨List.isChain_singleton _, rfl⟩
  | cons c calls ih =>
    obtain ⟨hchain, hlast⟩ := ih (held.call c).2
    rw [edges_cons, edges_call, History.after_cons]
    split
    · rename_i hsame
      rw [hsame] at hchain hlast
      exact ⟨hchain, hlast⟩
    · rename_i hchanged
      refine ⟨List.isChain_cons_cons.2 ⟨fun heq => hchanged heq.symm, hchain⟩, ?_⟩
      rw [List.singleton_append, List.getLastD_cons]
      exact hlast

/-! ### The end of a hold -/

/-- After the latest press of a key, the key is held since then or no longer. -/
theorem heldSince_press_iff {q : Int} {calls' : List Call} (hkey : key.toNat < 16)
    (hlatest : ∀ t, .press key t ∉ calls') :
    HeldSince timeout (calls ++ .press key p :: calls') key q ↔
      q = p ∧ ∀ t, .expire t ∈ calls' → max 0 (t - p) < timeout := by
  rw [HeldSince, and_iff_right hkey]
  induction calls' using List.reverseRecOn with
  | nil =>
    rw [History.since_concat_iff]
    simp [Call.Keeps, eq_comm]
  | append_singleton calls' c ih =>
    simp only [List.mem_append, not_or] at hlatest
    rw [← List.cons_append, ← List.append_assoc, History.since_concat_iff,
      ih fun t => (hlatest t).1]
    cases c with
    | press other t =>
      have hne : other ≠ key := by
        rintro rfl
        exact (hlatest t).2 (List.mem_singleton_self _)
      simp [Call.Keeps, hne]
    | expire t =>
      simp only [Call.Keeps, reduceCtorEq, false_or, List.mem_append, List.mem_singleton,
        Call.expire.injEq]
      constructor
      · rintro ⟨hkeeps, rfl, hrest⟩
        refine ⟨rfl, ?_⟩
        rintro u (hu | rfl)
        · exact hrest u hu
        · exact hkeeps
      · rintro ⟨rfl, hall⟩
        exact ⟨hall t (Or.inr rfl), rfl, fun u hu => hall u (Or.inl hu)⟩

/-- A key is released by the first expiry at which its latest press is old enough. -/
theorem mem_expire_press_iff {calls' : List Call} (hkey : key.toNat < 16)
    (hlatest : ∀ t, .press key t ∉ calls') :
    key ∈ ((after call (empty timeout) (calls ++ .press key p :: calls')).expire now).1 ↔
      timeout ≤ max 0 (now - p) ∧ ∀ t, .expire t ∈ calls' → max 0 (t - p) < timeout := by
  rw [mem_expire_after]
  simp only [heldSince_press_iff hkey hlatest]
  constructor
  · rintro ⟨q, ⟨rfl, hkept⟩, hdue⟩
    exact ⟨hdue, hkept⟩
  · rintro ⟨hdue, hkept⟩
    exact ⟨p, ⟨rfl, hkept⟩, hdue⟩

/-- With a clock that never goes backwards, a press is as old as the time since it. -/
theorem mem_expire_press_iff_of_inOrder {calls' : List Call} (hkey : key.toNat < 16)
    (hlatest : ∀ t, .press key t ∉ calls')
    (hordered : InOrder (calls ++ .press key p :: (calls' ++ [.expire now]))) :
    key ∈ ((after call (empty timeout) (calls ++ .press key p :: calls')).expire now).1 ↔
      p + timeout ≤ now ∧ ∀ t, .expire t ∈ calls' → t < p + timeout := by
  have hpress := (List.pairwise_append.1 hordered).2.1
  obtain ⟨hcalls', hnow⟩ := List.forall_mem_append.1 (List.pairwise_cons.1 hpress).1
  have hnow : p ≤ now := hnow (.expire now) (List.mem_singleton_self _)
  have hage {t : Int} (ht : p ≤ t) : max 0 (t - p) = t - p := by omega
  rw [mem_expire_press_iff hkey hlatest, hage hnow]
  refine and_congr (by omega) (forall₂_congr fun t ht => ?_)
  have hpt : p ≤ t := hcalls' (.expire t) ht
  rw [hage hpt]
  omega

/-- A table of held keys tells of each key when it comes to be held and when it no longer is, in
    turns, and first that it is. An expiry names, in ascending order, the keys whose latest press is
    as old as the timeout; a clock that went backwards makes no press younger than new. A press
    tells that its key was not held, unless it was, and from then on it is the press that counts:
    the key is released by the first expiry at which that press is old enough, which is sooner than
    without it or later. If the clock never goes backwards, this is the first expiry at or after the
    time of the press and the timeout. A press of a key above 15 is answered with no, and could be
    left out: no other answer is different, and neither is the table. -/
theorem holds_follow_calls (timeout : Nat) (calls : List Call) :
    let held := after call (empty timeout) calls
    (∀ key, key.toNat ≤ 15 →
      let told := edges key calls (answers call (empty timeout) calls)
      List.IsChain (· ≠ ·) (false :: told) ∧
        (told.getLastD false = true ↔ ∃ p, HeldSince timeout calls key p)) ∧
    (∀ now, (held.expire now).1.Pairwise (· < ·) ∧
      ∀ key, key ∈ (held.expire now).1 ↔
        ∃ p, HeldSince timeout calls key p ∧ timeout ≤ max 0 (now - p)) ∧
    (∀ key now, key.toNat ≤ 15 →
      ((held.press key now).1 = false ↔ ∃ p, HeldSince timeout calls key p)) ∧
    (∀ key p calls' now, key.toNat ≤ 15 → (∀ t, .press key t ∉ calls') →
      let later := after call (empty timeout) (calls ++ .press key p :: calls')
      (key ∈ (later.expire now).1 ↔
        timeout ≤ max 0 (now - p) ∧ ∀ t, .expire t ∈ calls' → max 0 (t - p) < timeout) ∧
      (InOrder (calls ++ .press key p :: (calls' ++ [.expire now])) →
        (key ∈ (later.expire now).1 ↔
          p + timeout ≤ now ∧ ∀ t, .expire t ∈ calls' → t < p + timeout))) ∧
    ∀ key now rest, 16 ≤ key.toNat →
      let all := answers call (empty timeout) (calls ++ .press key now :: rest)
      all[calls.length]? = some (.pressed false) ∧
      all.eraseIdx calls.length = answers call (empty timeout) (calls ++ rest) ∧
      after call (empty timeout) (calls ++ .press key now :: rest) =
        after call (empty timeout) (calls ++ rest) := by
  intro held
  refine ⟨fun key hkey => ?_, fun now => ⟨held.pairwise_expire now, fun key => mem_expire_after⟩,
    fun key now hkey => ?_, fun key p calls' now hkey hlatest => ?_, fun key now rest hkey => ?_⟩
  · have htold := isChain_edges (empty timeout) key calls
    rw [isHeld_empty] at htold
    refine ⟨htold.1, ?_⟩
    rw [htold.2]
    exact isHeld_after
  · rw [held.press_eq now (Nat.lt_succ_of_le hkey), Bool.not_eq_false']
    exact isHeld_after
  · have hlt := Nat.lt_succ_of_le hkey
    exact ⟨mem_expire_press_iff hlt hlatest, mem_expire_press_iff_of_inOrder hlt hlatest⟩
  · intro all
    have hrefused := held.call_press_of_le now hkey
    have hunchanged : (held.call (.press key now)).2 = held := by rw [hrefused]
    refine ⟨?_, History.answers_of_unchanged hunchanged rest,
      History.after_of_unchanged hunchanged rest⟩
    rw [History.answers_getElem?_append, hrefused]

/-- A key that is typed twice in time, at 50 the second time, and then forgotten at 150. -/
theorem holds_follow_two_presses :
    let held := after call (empty 100) [.press 3 0, .press 3 50, .expire 120]
    (held.press 3 140).1 = false ∧ 3 ∈ (held.expire 150).1 ∧ 3 ∉ (held.expire 149).1 ∧
      after call (empty 100) [.press 3 0, .press 16 0, .press 3 50, .expire 120] = held := by
  intro held
  obtain ⟨-, -, hpress, -⟩ := holds_follow_calls 100 [.press 3 0, .press 3 50, .expire 120]
  obtain ⟨-, -, -, hdeadline, hmissing⟩ := holds_follow_calls 100 [.press 3 0]
  have hlatest : ∀ t, Call.press 3 t ∉ [Call.expire 120] := by simp
  obtain ⟨-, -, hafter⟩ := hmissing 16 0 [.press 3 50, .expire 120] (by decide)
  have hordered : InOrder ([.press 3 0] ++ .press 3 50 :: ([.expire 120] ++ [.expire 150])) := by
    simp [InOrder, Call.time]
  have hdue := (hdeadline 3 50 [.expire 120] 150 (by decide) hlatest).2 hordered
  have hearly := (hdeadline 3 50 [.expire 120] 149 (by decide) hlatest).1
  refine ⟨?_, hdue.2 (by simp), fun hmem => absurd (hearly.1 hmem).1 (by decide), hafter⟩
  rw [hpress 3 140 (by decide)]
  exact ⟨50, by decide, [.press 3 0], [.expire 120], rfl, by simp [Call.Keeps]⟩

end Chip8.Terminal.KeyHolds
