import Mathlib.Data.List.ReduceOption
import Chip8.Proofs.Histories
import Chip8.Terminal.KeyQueue

/-! # The key queue between two threads

    One thread listens to the terminal and pushes keys; another steps the machine, and takes what is
    there. A call holds the lock of the queue from its beginning to its end, so what the two threads
    do together is some interleaving of their calls. Whichever it is, the keys come out as they went
    in: the batches that were taken, one after another, and what still waits, are the keys that were
    pushed.

    The reason is a balance that every call keeps. A push adds a key behind what waits, and a take
    moves all that waits behind what was taken. -/

namespace Chip8.Terminal.KeyQueue

open History (Interleaves Since after answers)

/-- What a key queue is asked to do. -/
inductive Call where
  | push (key : Key)
  | take
  deriving DecidableEq

/-- The key that a call pushes. -/
def Call.pushed? : Call → Option Key
  | push key => some key
  | take => none

/-- Makes a call. A take answers with its batch. -/
def call (q : KeyQueue) : Call → Option (List Key) × KeyQueue
  | .push key => (none, q.push key)
  | .take => (some q.takeAll.1, q.takeAll.2)

/-- The batches that calls take, in their order. -/
def batches (q : KeyQueue) (calls : List Call) : List (List Key) :=
  (answers call q calls).reduceOption

variable {calls : List Call}

/-! ### Any calls -/

theorem batches_push (q : KeyQueue) (key : Key) (calls : List Call) :
    q.batches (.push key :: calls) = (q.push key).batches calls :=
  List.reduceOption_cons_of_none _

theorem batches_take (q : KeyQueue) (calls : List Call) :
    q.batches (.take :: calls) = q.waiting.toList :: empty.batches calls :=
  List.reduceOption_cons_of_some _ _

theorem length_batches (q : KeyQueue) (calls : List Call) :
    (q.batches calls).length = calls.count .take := by
  induction calls generalizing q with
  | nil => rfl
  | cons c calls ih =>
    cases c with
    | push key => rw [batches_push, ih, List.count_cons_of_ne (by simp)]
    | take => rw [batches_take, List.length_cons, ih, List.count_cons_self]

/-- What was taken and what still waits is what had waited before and what was pushed. -/
theorem flatten_batches_append_waiting (q : KeyQueue) (calls : List Call) :
    (q.batches calls).flatten ++ (after call q calls).waiting.toList =
      q.waiting.toList ++ calls.filterMap Call.pushed? := by
  induction calls generalizing q with
  | nil => exact (List.append_nil _).symm
  | cons c calls ih =>
    cases c with
    | push key =>
      have hrest := ih (q.push key)
      rw [toList_waiting_push, List.append_assoc] at hrest
      rw [batches_push]
      exact hrest
    | take =>
      rw [batches_take, List.flatten_cons, List.append_assoc]
      exact congrArg (q.waiting.toList ++ ·) (ih empty)

/-- Since a take, what waits is what was pushed, as long as nothing more is taken. -/
theorem waiting_since_take (before : List Call) {between : List Call} (hnone : .take ∉ between) :
    (after call empty (before ++ .take :: between)).waiting.toList =
      between.filterMap Call.pushed? := by
  have hbatches : batches empty between = [] := by
    rw [← List.length_eq_zero_iff, length_batches, List.count_eq_zero_of_not_mem hnone]
  have hbalance := flatten_batches_append_waiting empty between
  rw [hbatches] at hbalance
  rw [History.after_append]
  exact hbalance

/-- Since a take, nothing waits, as long as nothing is pushed. -/
theorem waiting_of_since (h : Since (·.pushed? = none) Call.take calls) :
    (after call empty calls).waiting.toList = [] := by
  obtain ⟨before, between, rfl, hnone⟩ := h
  have hpushed : between.filterMap Call.pushed? = [] := List.filterMap_eq_nil_iff.2 hnone
  have hbalance := flatten_batches_append_waiting empty between
  rw [hpushed] at hbalance
  rw [History.after_append]
  exact (List.append_eq_nil_iff.1 hbalance).2

/-! ### Two threads -/

/-- The keys come out as they went in. A listener pushes keys, and another thread takes `n` times.
    However their calls are interleaved, there are `n` batches, and what they hold, one after
    another, together with what still waits, are the keys that were pushed, in their order. The
    batch of a take is what was pushed since the take before it, and is empty if nothing was. -/
theorem batches_hold_pushed_keys {keys : List Key} {n : Nat}
    (h : Interleaves (keys.map Call.push) (List.replicate n Call.take) calls) :
    (batches empty calls).length = n ∧
    (batches empty calls).flatten ++ (after call empty calls).waiting.toList = keys ∧
    ∀ earlier rest, calls = earlier ++ .take :: rest →
      (∀ before between, earlier = before ++ .take :: between → .take ∉ between →
        (answers call empty calls)[earlier.length]? =
          some (some (between.filterMap Call.pushed?))) ∧
      (Since (·.pushed? = none) Call.take earlier →
        (answers call empty calls)[earlier.length]? = some (some [])) := by
  have hcount : calls.count .take = n := by
    have hlistener : (keys.map Call.push).count .take = 0 :=
      List.count_eq_zero_of_not_mem (by simp)
    rw [h.count, hlistener, Nat.zero_add, List.count_replicate_self]
  have hpushed : calls.filterMap Call.pushed? = keys := by
    have hleft : (keys.map Call.push).filterMap Call.pushed? = keys := by
      rw [List.filterMap_map]
      exact List.filterMap_some
    have hright : (List.replicate n Call.take).filterMap Call.pushed? = [] :=
      List.filterMap_replicate_of_none rfl
    have hkeys := h.filterMap Call.pushed?
    rw [hleft, hright] at hkeys
    exact hkeys.eq_left
  refine ⟨(length_batches empty calls).trans hcount,
    (flatten_batches_append_waiting empty calls).trans hpushed, ?_⟩
  rintro earlier rest rfl
  have hanswer := History.answers_getElem?_append call empty earlier .take rest
  constructor
  · rintro before between rfl hnone
    rw [hanswer]
    exact congrArg (some ∘ some) (waiting_since_take before hnone)
  · intro hsince
    rw [hanswer]
    exact congrArg (some ∘ some) (waiting_of_since hsince)

/-- Two keys and three takes, two of them in a row: the second of these is empty. -/
theorem batches_hold_two_keys :
    let keys := [Key.char '1', Key.char 'a']
    let calls := [.push (.char '1'), .take, .take, .push (.char 'a'), .take]
    Interleaves (keys.map Call.push) (List.replicate 3 Call.take) calls ∧
      (batches empty calls).flatten ++ (after call empty calls).waiting.toList = keys ∧
      (answers call empty calls)[2]? = some (some []) ∧
      (answers call empty calls)[4]? = some (some [Key.char 'a']) := by
  intro keys calls
  have h : Interleaves (keys.map Call.push) (List.replicate 3 Call.take) calls :=
    .left _ (.right _ (.right _ (.left _ (.right _ .nil))))
  obtain ⟨-, hkeys, hbatch⟩ := batches_hold_pushed_keys h
  have hsecond := (hbatch [.push (.char '1'), .take] [.push (.char 'a'), .take] rfl).2
    ⟨[.push (.char '1')], [], rfl, nofun⟩
  have hthird := (hbatch [.push (.char '1'), .take, .take, .push (.char 'a')] [] rfl).1
    [.push (.char '1'), .take] [.push (.char 'a')] rfl (by decide)
  exact ⟨h, hkeys, hsecond, hthird⟩

end Chip8.Terminal.KeyQueue
