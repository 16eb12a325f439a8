import Chip8.Note
import Chip8.Proofs.Words

/-! # Diagnostics tell things apart

    A message tells which error it is about, and the trace of an instruction which one it was and
    where. Both are put together from words and marks, and are read from their beginning, word by
    word. No two causes have messages that begin alike, and behind the beginning stand the numerals.
    A trace is an address, a name, and the operands in parentheses. -/

namespace Chip8

namespace Error

open Numeral (decimal hex)

/-! ### Messages -/

/-- The text that all messages of a cause begin with. -/
def opening : Error → String
  | .unknownOpcode .. => "unknown opcode "
  | .stackOverflow _ => "stack overflow: call at "
  | .stackUnderflow _ => "stack underflow: return at "
  | .romTooLarge .. => "ROM is too large ("
  | .invalidSpeed => "speed must be at least one step per timer tick"
  | .invalidKey _ => "key "

/-- What follows it, from the first numeral on. -/
def details : Error → String
  | .unknownOpcode opcode pc => hex 4 opcode.toNat ++ (" at " ++ hex 3 pc.toNat)
  | .stackOverflow pc => hex 3 pc.toNat ++ " nests deeper than the stack allows"
  | .stackUnderflow pc => hex 3 pc.toNat ++ " with an empty call stack"
  | .romTooLarge size maxSize =>
    decimal size ++ (" bytes), max size is " ++ (decimal maxSize ++ " bytes"))
  | .invalidSpeed => ""
  | .invalidKey key => hex 1 key.toNat ++ " is outside the 16-key keypad"

theorem message_eq_append (e : Error) : e.message = e.opening ++ e.details := by
  cases e with
  | unknownOpcode => exact String.append_assoc.trans String.append_assoc
  | stackOverflow | stackUnderflow | invalidKey => exact String.append_assoc
  | romTooLarge => exact (String.append_assoc.trans String.append_assoc).trans String.append_assoc
  | invalidSpeed => exact String.append_empty.symm

/-- No opening is the beginning of another one. -/
theorem opening_eq_of_starts {e e' : Error} (h : e.opening.toList <+: e'.opening.toList) :
    e.opening = e'.opening := by
  cases e <;> cases e' <;> first | rfl | exact absurd h (by simp only [opening]; decide)

theorem opening_details_of_message_eq {e e' : Error} (h : e.message = e'.message) :
    e.opening = e'.opening ∧ e.details = e'.details := by
  rw [message_eq_append, message_eq_append] at h
  have hlists := congrArg String.toList h
  rw [String.toList_append, String.toList_append] at hlists
  have hopening : e.opening = e'.opening := by
    have hstarts : e.opening.toList <+: e'.opening.toList ++ e'.details.toList :=
      hlists ▸ List.prefix_append _ _
    rcases List.prefix_or_prefix_of_prefix hstarts (List.prefix_append _ _) with hle | hle
    · exact opening_eq_of_starts hle
    · exact (opening_eq_of_starts hle).symm
  rw [hopening] at h
  exact ⟨hopening, (String.append_right_inj e'.opening).1 h⟩

theorem message_injective : Function.Injective message := by
  intro e e' h
  obtain ⟨hopening, hdetails⟩ := opening_details_of_message_eq h
  cases e with
  | unknownOpcode opcode pc =>
    cases e' with
    | unknownOpcode opcode' pc' =>
      have hmark (n : Nat) : BeginsWithMark (" at " ++ hex 3 n) :=
        BeginsWithMark.append (by decide) (by decide) _
      obtain ⟨hopcode, hrest⟩ := hex_append_inj (hmark _) (hmark _) hdetails
      have hpc := Numeral.hex_inj ((String.append_right_inj " at ").1 hrest)
      rw [UInt16.toNat_inj.1 hopcode, UInt16.toNat_inj.1 hpc]
    | _ => simp [opening] at hopening
  | stackOverflow pc =>
    cases e' with
    | stackOverflow pc' =>
      obtain ⟨hpc, -⟩ := hex_append_inj (by decide) (by decide) hdetails
      rw [UInt16.toNat_inj.1 hpc]
    | _ => simp [opening] at hopening
  | stackUnderflow pc =>
    cases e' with
    | stackUnderflow pc' =>
      obtain ⟨hpc, -⟩ := hex_append_inj (by decide) (by decide) hdetails
      rw [UInt16.toNat_inj.1 hpc]
    | _ => simp [opening] at hopening
  | romTooLarge size maxSize =>
    cases e' with
    | romTooLarge size' maxSize' =>
      have hmark (n : Nat) : BeginsWithMark (" bytes), max size is " ++ (decimal n ++ " bytes")) :=
        BeginsWithMark.append (by decide) (by decide) _
      obtain ⟨hsize, hrest⟩ := decimal_append_inj (hmark _) (hmark _) hdetails
      have hrest := (String.append_right_inj " bytes), max size is ").1 hrest
      obtain ⟨hmax, -⟩ := decimal_append_inj (by decide) (by decide) hrest
      rw [hsize, hmax]
    | _ => simp [opening] at hopening
  | invalidSpeed =>
    cases e' with
    | invalidSpeed => rfl
    | _ => simp [opening] at hopening
  | invalidKey key =>
    cases e' with
    | invalidKey key' =>
      obtain ⟨hkey, -⟩ := hex_append_inj (by decide) (by decide) hdetails
      rw [UInt8.toNat_inj.1 hkey]
    | _ => simp [opening] at hopening

end Error

namespace Operand

/-! ### Operands -/

/-- What follows an operand: the other operands, each behind a comma, and the end. -/
def rest : List Operand → String
  | [] => ")"
  | o :: os => ", " ++ (o.text ++ rest os)

/-- What follows a name: nothing, or the operands in parentheses. -/
def tuple : List Operand → String
  | [] => ""
  | o :: os => "(" ++ (o.text ++ rest os)

theorem intercalate_append (o : Operand) (os : List Operand) :
    String.intercalate ", " ((o :: os).map text) ++ ")" = o.text ++ rest os := by
  induction os generalizing o with
  | nil => rw [List.map_singleton, String.intercalate_singleton, rest]
  | cons o' os ih =>
    rw [List.map_cons, List.map_cons, String.intercalate_cons_cons, String.append_assoc,
      ← List.map_cons, ih, String.append_assoc, rest]

theorem isWord_kind (o : Operand) : IsWord o.kind := by
  unfold kind
  split <;> decide

theorem eq_of_kind_value {o o' : Operand} (hkind : o.kind = o'.kind)
    (hvalue : o.value = o'.value) : o = o' := by
  cases o <;> cases o' <;> simp_all [kind, value, UInt8.toNat_inj, UInt16.toNat_inj]

theorem text_append_inj {o o' : Operand} {s s' : String} (h : o.text ++ s = o'.text ++ s') :
    o = o' ∧ s = s' := by
  have hopen (t : String) : BeginsWithMark ("(" ++ t) :=
    BeginsWithMark.append (by decide) (by decide) t
  have hclose (t : String) : BeginsWithMark (")" ++ t) :=
    BeginsWithMark.append (by decide) (by decide) t
  simp only [text, String.append_assoc] at h
  obtain ⟨hkind, h⟩ := o.isWord_kind.append_inj o'.isWord_kind (hopen _) (hopen _) h
  obtain ⟨hvalue, h⟩ :=
    decimal_append_inj (hclose _) (hclose _) ((String.append_right_inj "(").1 h)
  exact ⟨eq_of_kind_value hkind hvalue, (String.append_right_inj ")").1 h⟩

theorem rest_nil_ne_cons (o : Operand) (os : List Operand) : rest [] ≠ rest (o :: os) := by
  intro h
  have hcomma : (rest (o :: os)).toList.head? = some ',' := head?_toList_append (by decide) _
  rw [← h] at hcomma
  exact absurd hcomma (by decide)

theorem rest_injective : Function.Injective rest := by
  intro os
  induction os with
  | nil =>
    intro os' h
    cases os' with
    | nil => rfl
    | cons o' os' => exact absurd h (rest_nil_ne_cons o' os')
  | cons o os ih =>
    intro os' h
    cases os' with
    | nil => exact absurd h.symm (rest_nil_ne_cons o os)
    | cons o' os' =>
      obtain ⟨ho, hrest⟩ := text_append_inj ((String.append_right_inj ", ").1 h)
      rw [ho, ih hrest]

theorem tuple_nil_ne_cons (o : Operand) (os : List Operand) : tuple [] ≠ tuple (o :: os) := by
  intro h
  have hopen : (tuple (o :: os)).toList.head? = some '(' := head?_toList_append (by decide) _
  rw [← h] at hopen
  exact absurd hopen (by decide)

theorem tuple_injective : Function.Injective tuple := by
  intro os os' h
  cases os with
  | nil =>
    cases os' with
    | nil => rfl
    | cons o' os' => exact absurd h (tuple_nil_ne_cons o' os')
  | cons o os =>
    cases os' with
    | nil => exact absurd h.symm (tuple_nil_ne_cons o os)
    | cons o' os' =>
      obtain ⟨ho, hrest⟩ := text_append_inj ((String.append_right_inj "(").1 h)
      rw [ho, rest_injective hrest]

theorem beginsWithMark_tuple (os : List Operand) : BeginsWithMark (tuple os) := by
  cases os with
  | nil => exact nofun
  | cons o os => exact BeginsWithMark.append (by decide) (by decide) _

end Operand

namespace Instruction

/-! ### Traces -/

theorem text_eq_append (i : Instruction) : i.text = i.name ++ Operand.tuple i.operands := by
  rw [text]
  cases i.operands with
  | nil => exact String.append_empty.symm
  | cons o os =>
    have htail := Operand.intercalate_append o os
    show i.name ++ "(" ++ String.intercalate ", " ((o :: os).map Operand.text) ++ ")" = _
    rw [Operand.tuple, ← htail, String.append_assoc, String.append_assoc]

theorem isWord_name (i : Instruction) : IsWord i.name := by
  unfold name
  split <;> decide

theorem text_injective : Function.Injective text := by
  intro i i' h
  rw [text_eq_append, text_eq_append] at h
  obtain ⟨hname, htuple⟩ := i.isWord_name.append_inj i'.isWord_name
    (Operand.beginsWithMark_tuple _) (Operand.beginsWithMark_tuple _) h
  have hparts := ofParts?_name_operands i
  rw [hname, Operand.tuple_injective htuple, ofParts?_name_operands] at hparts
  exact (Option.some.inj hparts).symm

end Instruction

theorem Note.traceText_inj {pc pc' : UInt16} {i i' : Instruction}
    (h : traceText pc i = traceText pc' i') : pc = pc' ∧ i = i' := by
  have hmark (t : String) : BeginsWithMark (": " ++ t) :=
    BeginsWithMark.append (by decide) (by decide) t
  rw [traceText, traceText, String.append_assoc, String.append_assoc] at h
  obtain ⟨hpc, hrest⟩ := hex_append_inj (hmark _) (hmark _) h
  have htext := (String.append_right_inj ": ").1 hrest
  exact ⟨UInt16.toNat_inj.1 hpc, Instruction.text_injective htext⟩

/-- Diagnostics are never ambiguous: different errors have different messages, whatever their cause
    and their details, and different instructions, or one at different addresses, different
    traces. -/
theorem message_traceText_injective :
    Function.Injective Error.message ∧
      Function.Injective fun p : UInt16 × Instruction => Note.traceText p.1 p.2 := by
  refine ⟨Error.message_injective, ?_⟩
  rintro ⟨pc, i⟩ ⟨pc', i'⟩ h
  obtain ⟨rfl, rfl⟩ := Note.traceText_inj h
  rfl

end Chip8
