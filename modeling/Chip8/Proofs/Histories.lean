import Mathlib.Data.List.Basic

/-! # Histories of calls

    Something that is called again and again, and answers each time. A call gives its answer and the
    state for the next one, so both are told by the list of the calls up to it. Such a list is
    extended at its end, by the latest call. A call that changes nothing can be left out of it: no
    other answer is different. Of two callers at once, the list holds the calls of both, each in its
    order. -/

namespace Chip8.History

universe u v w

variable {σ : Type u} {γ : Type v} {α : Type w}

/-- The state after calls. -/
def after (call : σ → γ → α × σ) (s : σ) (calls : List γ) : σ :=
  calls.foldl (fun s c => (call s c).2) s

/-- The answers to calls, in their order. -/
def answers (call : σ → γ → α × σ) : σ → List γ → List α
  | _, [] => []
  | s, c :: calls => (call s c).1 :: answers call (call s c).2 calls

/-- A call was made, and every call after it is of some kind. -/
def Since (P : γ → Prop) (c : γ) (calls : List γ) : Prop :=
  ∃ before rest, calls = before ++ c :: rest ∧ ∀ d ∈ rest, P d

/-- Calls of two callers, each of which makes its own in their order. -/
inductive Interleaves : List γ → List γ → List γ → Prop where
  | nil : Interleaves [] [] []
  | left (c : γ) {l r both : List γ} (h : Interleaves l r both) : Interleaves (c :: l) r (c :: both)
  | right (c : γ) {l r both : List γ} (h : Interleaves l r both) :
      Interleaves l (c :: r) (c :: both)

section Calls

variable (call : σ → γ → α × σ) (s : σ)

@[simp] theorem after_nil : after call s [] = s := rfl

@[simp] theorem after_cons (c : γ) (calls : List γ) :
    after call s (c :: calls) = after call (call s c).2 calls := rfl

theorem after_append (calls calls' : List γ) :
    after call s (calls ++ calls') = after call (after call s calls) calls' :=
  List.foldl_append

@[simp] theorem after_concat (calls : List γ) (c : γ) :
    after call s (calls ++ [c]) = (call (after call s calls) c).2 :=
  after_append call s calls [c]

theorem length_answers (calls : List γ) : (answers call s calls).length = calls.length := by
  induction calls generalizing s with
  | nil => rfl
  | cons c calls ih => simp [answers, ih]

theorem answers_append (calls calls' : List γ) :
    answers call s (calls ++ calls') =
      answers call s calls ++ answers call (after call s calls) calls' := by
  induction calls generalizing s with
  | nil => rfl
  | cons c calls ih => simp [answers, ih]

/-- The answer to a call comes from the state that the calls before it leave. -/
theorem answers_getElem?_append (calls : List γ) (c : γ) (rest : List γ) :
    (answers call s (calls ++ c :: rest))[calls.length]? =
      some (call (after call s calls) c).1 := by
  have hlength := length_answers call s calls
  rw [answers_append, List.getElem?_append_right (Nat.le_of_eq hlength), hlength, Nat.sub_self]
  rfl

variable {call s} {calls : List γ} {c : γ}

/-- Calls after one that changes nothing come to the same without it. -/
theorem after_of_unchanged (h : (call (after call s calls) c).2 = after call s calls)
    (rest : List γ) : after call s (calls ++ c :: rest) = after call s (calls ++ rest) := by
  rw [after_append, after_append, after_cons, h]

/-- Without a call that changes nothing, the answers are those of the other calls. -/
theorem answers_of_unchanged (h : (call (after call s calls) c).2 = after call s calls)
    (rest : List γ) :
    (answers call s (calls ++ c :: rest)).eraseIdx calls.length =
      answers call s (calls ++ rest) := by
  have hlength := length_answers call s calls
  rw [answers_append, answers_append, answers, h,
    List.eraseIdx_append_of_length_le (Nat.le_of_eq hlength), hlength, Nat.sub_self]
  rfl

end Calls

section Since

variable {P : γ → Prop} {c d : γ} {calls : List γ}

theorem not_since_nil : ¬ Since P c [] := by
  rintro ⟨before, rest, heq, -⟩
  simp at heq

/-- The latest call is the one that was made, or is a later one. -/
theorem since_concat_iff : Since P c (calls ++ [d]) ↔ d = c ∨ (P d ∧ Since P c calls) := by
  constructor
  · rintro ⟨before, rest, heq, hrest⟩
    rcases List.eq_nil_or_concat' rest with rfl | ⟨rest, last, rfl⟩
    · exact Or.inl (List.singleton_inj.1 (List.append_inj_right' heq rfl))
    · rw [← List.cons_append, ← List.append_assoc] at heq
      obtain ⟨rfl, hlast⟩ := List.append_inj' heq rfl
      obtain rfl : d = last := List.singleton_inj.1 hlast
      obtain ⟨hrest, hd⟩ := List.forall_mem_append.1 hrest
      exact Or.inr ⟨hd d (List.mem_singleton_self d), before, rest, rfl, hrest⟩
  · rintro (rfl | ⟨hd, before, rest, rfl, hrest⟩)
    · exact ⟨calls, [], rfl, nofun⟩
    · exact ⟨before, rest ++ [d], by simp,
        List.forall_mem_append.2 ⟨hrest, List.forall_mem_singleton.2 hd⟩⟩

end Since

namespace Interleaves

variable {δ : Type w} {l r both : List γ}

theorem filterMap (f : γ → Option δ) (h : Interleaves l r both) :
    Interleaves (l.filterMap f) (r.filterMap f) (both.filterMap f) := by
  induction h with
  | nil => exact .nil
  | left c h ih =>
    simp only [List.filterMap_cons]
    cases f c with
    | none => exact ih
    | some d => exact .left d ih
  | right c h ih =>
    simp only [List.filterMap_cons]
    cases f c with
    | none => exact ih
    | some d => exact .right d ih

/-- Beside a caller that makes no calls, the other is alone. -/
theorem eq_left (h : Interleaves l [] both) : both = l := by
  induction l generalizing both with
  | nil =>
    cases h
    rfl
  | cons c l ih =>
    cases h with
    | left _ h => rw [ih h]

theorem count [DecidableEq γ] (h : Interleaves l r both) (c : γ) :
    both.count c = l.count c + r.count c := by
  induction h with
  | nil => rfl
  | left d h ih => rw [List.count_cons, List.count_cons, ih, Nat.add_right_comm]
  | right d h ih => rw [List.count_cons, List.count_cons, ih, Nat.add_assoc]

end Interleaves

end Chip8.History
