import Mathlib.Data.List.Basic
import Chip8.Text.Numeral

/-! # Words and numerals

    What can be read off a text that was put together from words and from marks between them. A word
    is made of letters and digits. Every numeral is one, however many digits it has. A text that
    follows a word begins with a mark, so the end of the word can be seen, and both parts are found
    again. A number is found again by the value of its digits, to which zeros in front add
    nothing. -/

namespace Chip8

/-! ### Numerals -/

namespace Numeral

/-- The number that a digit stands for. -/
def digitValue (c : Char) : Nat :=
  if c.isDigit then c.toNat - '0'.toNat else c.toNat - 'a'.toNat + 10

/-- The number that a row of digits stands for. -/
def value (base : Nat) (digits : List Char) : Nat :=
  digits.foldl (fun n c => base * n + digitValue c) 0

theorem digitValue_digitChar : ∀ d < 16, digitValue (Nat.digitChar d) = d := by decide

theorem isAlphanum_digitChar : ∀ d < 16, (Nat.digitChar d).isAlphanum = true := by decide

variable {base : Nat}

/-- The digits of a number are one digit, or those of a smaller number and one more. -/
theorem toDigits_induction {P : Nat → List Char → Prop} (hbase : 1 < base)
    (one : ∀ d < base, P d [Nat.digitChar d])
    (more : ∀ n digits, ∀ d < base, P n digits →
      P (base * n + d) (digits ++ [Nat.digitChar d]))
    (n : Nat) : P n (Nat.toDigits base n) := by
  induction n using Nat.strongRecOn with
  | ind n ih =>
    rcases Nat.lt_or_ge n base with hlt | hle
    · rw [Nat.toDigits_of_lt_base hlt]
      exact one n hlt
    · have hless : n / base < n := Nat.div_lt_self (by omega) hbase
      have hdigit : n % base < base := Nat.mod_lt n (by omega)
      have hmore := more _ _ _ hdigit (ih _ hless)
      rwa [Nat.div_add_mod, ← Nat.toDigits_of_base_le hbase hle] at hmore

theorem value_append_singleton (base : Nat) (digits : List Char) (c : Char) :
    value base (digits ++ [c]) = base * value base digits + digitValue c := by
  rw [value, List.foldl_append]
  rfl

/-- A number is read back from its digits. -/
theorem value_toDigits (hbase : 1 < base) (hle : base ≤ 16) (n : Nat) :
    value base (Nat.toDigits base n) = n := by
  have hdigit (d : Nat) (hd : d < base) : digitValue (Nat.digitChar d) = d :=
    digitValue_digitChar d (Nat.lt_of_lt_of_le hd hle)
  refine toDigits_induction (P := fun n digits => value base digits = n) hbase
    (fun d hd => ?_) (fun n digits d hd hn => ?_) n
  · rw [← List.nil_append [_], value_append_singleton, hdigit d hd]
    exact Nat.zero_add d
  · rw [value_append_singleton, hn, hdigit d hd]

theorem isAlphanum_of_mem_toDigits (hbase : 1 < base) (hle : base ≤ 16) (n : Nat) :
    ∀ c ∈ Nat.toDigits base n, c.isAlphanum = true := by
  have hdigit (d : Nat) (hd : d < base) : (Nat.digitChar d).isAlphanum = true :=
    isAlphanum_digitChar d (Nat.lt_of_lt_of_le hd hle)
  refine toDigits_induction (P := fun _ digits => ∀ c ∈ digits, c.isAlphanum = true) hbase
    (fun d hd => ?_) (fun n digits d hd hn => ?_) n
  · exact List.forall_mem_singleton.2 (hdigit d hd)
  · exact List.forall_mem_append.2 ⟨hn, List.forall_mem_singleton.2 (hdigit d hd)⟩

/-- Zeros in front do not count. -/
theorem value_padded (base width : Nat) (digits : List Char) :
    value base (padded width digits) = value base digits := by
  have hzeros (k : Nat) : value base (List.replicate k '0' ++ digits) = value base digits := by
    induction k with
    | zero => rfl
    | succ k ih => exact ih
  exact hzeros _

theorem value_toList_decimal (n : Nat) : value 10 (decimal n).toList = n := by
  rw [decimal, String.toList_ofList, value_toDigits (by decide) (by decide)]

theorem decimal_inj {n n' : Nat} (h : decimal n = decimal n') : n = n' := by
  rw [← value_toList_decimal n, h, value_toList_decimal]

theorem hex_inj {width n n' : Nat} (h : hex width n = hex width n') : n = n' := by
  rw [hex, hex, String.append_right_inj, String.ofList_inj] at h
  have hvalue := congrArg (value 16) h
  rwa [value_padded, value_padded, value_toDigits (by decide) (by decide),
    value_toDigits (by decide) (by decide)] at hvalue

end Numeral

/-! ### Words -/

/-- A text of letters and digits. -/
def IsWord (s : String) : Prop := ∀ c ∈ s.toList, c.isAlphanum = true

/-- A text that begins with neither a letter nor a digit, or is empty. -/
def BeginsWithMark (s : String) : Prop := ∀ c ∈ s.toList.head?, c.isAlphanum = false

-- decided on the characters of the text; an instance found by search may try every `Char`
instance : DecidablePred IsWord := fun s =>
  decidable_of_iff (s.toList.all Char.isAlphanum = true) List.all_eq_true

instance : DecidablePred BeginsWithMark := fun s =>
  Option.decidableForallMem s.toList.head?

theorem takeWhile_word_append {w s : String} (hw : IsWord w) (hs : BeginsWithMark s) :
    (w ++ s).toList.takeWhile Char.isAlphanum = w.toList := by
  have hmark : s.toList.takeWhile Char.isAlphanum = [] := by
    cases hlist : s.toList with
    | nil => rfl
    | cons c cs =>
      have hc : c.isAlphanum = false := hs c (by rw [hlist]; rfl)
      exact List.takeWhile_cons_of_neg (by simp [hc])
  rw [String.toList_append, List.takeWhile_append_of_pos hw, hmark, List.append_nil]

/-- A word ends where a mark begins. -/
theorem IsWord.append_inj {w w' s s' : String} (hw : IsWord w) (hw' : IsWord w')
    (hs : BeginsWithMark s) (hs' : BeginsWithMark s') (h : w ++ s = w' ++ s') :
    w = w' ∧ s = s' := by
  have hwords := congrArg (fun t => t.toList.takeWhile Char.isAlphanum) h
  simp only [takeWhile_word_append hw hs, takeWhile_word_append hw' hs'] at hwords
  obtain rfl := String.toList_injective hwords
  exact ⟨rfl, (String.append_right_inj w).1 h⟩

theorem head?_toList_append {s : String} (hne : s.toList ≠ []) (t : String) :
    (s ++ t).toList.head? = s.toList.head? := by
  rw [String.toList_append, List.head?_append_of_ne_nil _ hne]

theorem BeginsWithMark.append {s : String} (hs : BeginsWithMark s) (hne : s.toList ≠ [])
    (t : String) : BeginsWithMark (s ++ t) := by
  rw [BeginsWithMark, head?_toList_append hne]
  exact hs

theorem isWord_decimal (n : Nat) : IsWord (Numeral.decimal n) := by
  rw [IsWord, Numeral.decimal, String.toList_ofList]
  exact Numeral.isAlphanum_of_mem_toDigits (by decide) (by decide) n

theorem isWord_hex (width n : Nat) : IsWord (Numeral.hex width n) := by
  have hdigits := Numeral.isAlphanum_of_mem_toDigits (by decide) (Nat.le_refl 16) n
  rw [IsWord, Numeral.hex, String.toList_append, List.forall_mem_append]
  refine ⟨show IsWord "0x" by decide, ?_⟩
  rw [String.toList_ofList, Numeral.padded, List.forall_mem_append]
  refine ⟨fun c hc => ?_, hdigits⟩
  rw [List.eq_of_mem_replicate hc]
  rfl

theorem decimal_append_inj {n n' : Nat} {s s' : String} (hs : BeginsWithMark s)
    (hs' : BeginsWithMark s') (h : Numeral.decimal n ++ s = Numeral.decimal n' ++ s') :
    n = n' ∧ s = s' := by
  obtain ⟨hn, hrest⟩ := (isWord_decimal n).append_inj (isWord_decimal n') hs hs' h
  exact ⟨Numeral.decimal_inj hn, hrest⟩

theorem hex_append_inj {width n n' : Nat} {s s' : String} (hs : BeginsWithMark s)
    (hs' : BeginsWithMark s') (h : Numeral.hex width n ++ s = Numeral.hex width n' ++ s') :
    n = n' ∧ s = s' := by
  obtain ⟨hn, hrest⟩ := (isWord_hex width n).append_inj (isWord_hex width n') hs hs' h
  exact ⟨Numeral.hex_inj hn, hrest⟩

end Chip8
