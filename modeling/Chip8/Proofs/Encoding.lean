import Chip8.Instruction.Encode
import Chip8.Proofs.Operands
import Mathlib.Data.List.Forall2

/-! # Words and instructions

    The form of an instruction says for each of the four digits of its word whether it is fixed or
    belongs to an operand. A word is decoded exactly if it has one of these forms, and then to the
    instruction whose word it is. Only the shifts lose something: they ignore the third digit, and
    their own word has a zero there. -/

namespace Chip8

/-- What a form has for one digit: the digit itself, or an operand that the digit is part of. -/
inductive Place where
  | digit (d : Nat)
  | x
  | y
  | n
  deriving DecidableEq, Repr

/-- Whether a digit can stand at a place. -/
def Place.Fits : Place → Nat → Prop
  | .digit d, e => e = d
  | .x, _ | .y, _ | .n, _ => True

instance (d : Nat) : OfNat Place d := ⟨.digit d⟩

@[simp] theorem Place.fits_ofNat (d e : Nat) : Place.Fits (no_index (OfNat.ofNat d)) e ↔ e = d :=
  Iff.rfl

namespace Opcode

/-- The digits of the word, the highest first. -/
def digits (o : Opcode) : List Nat :=
  [o.word.toNat / 4096, o.word.toNat / 256 % 16, o.word.toNat / 16 % 16, o.word.toNat % 16]

/-- Whether each digit fits its place in a form. -/
def Matches (o : Opcode) (form : List Place) : Prop := List.Forall₂ Place.Fits form o.digits

end Opcode

namespace Instruction

/-- The form of the words of an instruction. -/
def form : Instruction → List Place
  | .clearScreen => [0x0, 0x0, 0xE, 0x0]
  | .ret => [0x0, 0x0, 0xE, 0xE]
  | .jump _ => [0x1, .n, .n, .n]
  | .call _ => [0x2, .n, .n, .n]
  | .skipEqConst .. => [0x3, .x, .n, .n]
  | .skipNeConst .. => [0x4, .x, .n, .n]
  | .skipEq .. => [0x5, .x, .y, 0x0]
  | .setConst .. => [0x6, .x, .n, .n]
  | .addConst .. => [0x7, .x, .n, .n]
  | .move .. => [0x8, .x, .y, 0x0]
  | .or .. => [0x8, .x, .y, 0x1]
  | .and .. => [0x8, .x, .y, 0x2]
  | .xor .. => [0x8, .x, .y, 0x3]
  | .add .. => [0x8, .x, .y, 0x4]
  | .sub .. => [0x8, .x, .y, 0x5]
  | .shiftRight _ => [0x8, .x, .y, 0x6]
  | .subFrom .. => [0x8, .x, .y, 0x7]
  | .shiftLeft _ => [0x8, .x, .y, 0xE]
  | .skipNe .. => [0x9, .x, .y, 0x0]
  | .setIndex _ => [0xA, .n, .n, .n]
  | .jumpIndexed _ => [0xB, .n, .n, .n]
  | .random .. => [0xC, .x, .n, .n]
  | .draw .. => [0xD, .x, .y, .n]
  | .skipKeyDown _ => [0xE, .x, 0x9, 0xE]
  | .skipKeyUp _ => [0xE, .x, 0xA, 0x1]
  | .readDelay _ => [0xF, .x, 0x0, 0x7]
  | .awaitKey _ => [0xF, .x, 0x0, 0xA]
  | .setDelay _ => [0xF, .x, 0x1, 0x5]
  | .setSound _ => [0xF, .x, 0x1, 0x8]
  | .addIndex _ => [0xF, .x, 0x1, 0xE]
  | .glyph _ => [0xF, .x, 0x2, 0x9]
  | .decimal _ => [0xF, .x, 0x3, 0x3]
  | .store _ => [0xF, .x, 0x5, 0x5]
  | .load _ => [0xF, .x, 0x6, 0x5]

/-- Whether all operands fit their places: they are in range, and the height of a sprite is a single
    digit. -/
def HasWord (i : Instruction) : Prop :=
  i.InRange ∧ ∀ x y n, i = .draw x y n → n.toNat < 16

/-- Whether the third digit of the word is ignored. -/
def ignoresY : Instruction → Bool
  | .shiftRight _ | .shiftLeft _ => true
  | _ => false

/-! ### The fields of a word -/

section fields

variable {high n : Nat} {x y low : UInt8} {target : UInt16}

theorem toNat_wordXB (hhigh : high < 16) (hx : x.toNat < 16) :
    (wordXB high x low).toNat = 0x1000 * high + 0x100 * x.toNat + low.toNat := by
  have hlow := low.toNat_lt
  exact UInt16.toNat_ofNat_of_lt' (by simp only [UInt16.size]; omega)

theorem toNat_wordXYN (hhigh : high < 16) (hx : x.toNat < 16) (hy : y.toNat < 16) (hn : n < 16) :
    (wordXYN high x y n).toNat = 0x1000 * high + 0x100 * x.toNat + 0x10 * y.toNat + n :=
  UInt16.toNat_ofNat_of_lt' (by simp only [UInt16.size]; omega)

theorem toNat_wordAddr (hhigh : high < 16) (htarget : target.toNat < 4096) :
    (wordAddr high target).toNat = 0x1000 * high + target.toNat :=
  UInt16.toNat_ofNat_of_lt' (by simp only [UInt16.size]; omega)

theorem eq_ofNat_of_toNat {a : UInt8} (h : a.toNat = n) : a = UInt8.ofNat n := by
  rw [← h, UInt8.ofNat_toNat]

theorem fields_wordXB (hhigh : high < 16) (hx : x.toNat < 16) :
    let o : Opcode := ⟨wordXB high x low⟩
    o.family = UInt8.ofNat high ∧ o.x = x ∧ o.lowByte = low := by
  intro o
  have hword : o.word.toNat = _ := toNat_wordXB hhigh hx
  have hlow := low.toNat_lt
  refine ⟨eq_ofNat_of_toNat ?_, UInt8.toNat_inj.1 ?_, UInt8.toNat_inj.1 ?_⟩
  · rw [o.toNat_family, hword]; omega
  · rw [o.toNat_x, hword]; omega
  · rw [o.toNat_lowByte, hword]; omega

theorem fields_wordXYN (hhigh : high < 16) (hx : x.toNat < 16) (hy : y.toNat < 16) (hn : n < 16) :
    let o : Opcode := ⟨wordXYN high x y n⟩
    o.family = UInt8.ofNat high ∧ o.x = x ∧ o.y = y ∧ o.low = UInt8.ofNat n := by
  intro o
  have hword : o.word.toNat = _ := toNat_wordXYN hhigh hx hy hn
  refine ⟨eq_ofNat_of_toNat ?_, UInt8.toNat_inj.1 ?_, UInt8.toNat_inj.1 ?_, eq_ofNat_of_toNat ?_⟩
  · rw [o.toNat_family, hword]; omega
  · rw [o.toNat_x, hword]; omega
  · rw [o.toNat_y, hword]; omega
  · rw [o.toNat_low, hword]; omega

theorem fields_wordAddr (hhigh : high < 16) (htarget : target.toNat < 4096) :
    let o : Opcode := ⟨wordAddr high target⟩
    o.family = UInt8.ofNat high ∧ o.address = target := by
  intro o
  have hword : o.word.toNat = _ := toNat_wordAddr hhigh htarget
  refine ⟨eq_ofNat_of_toNat ?_, UInt16.toNat_inj.1 ?_⟩
  · rw [o.toNat_family, hword]; omega
  · rw [o.toNat_address, hword]; omega

end fields

/-! ### Encoding and then decoding -/

theorem decode?_encode {i : Instruction} (h : i.HasWord) : decode? ⟨i.encode⟩ = some i := by
  obtain ⟨hrange, hrows⟩ := h
  simp only [InRange, Operand.InRange] at hrange
  cases i with
  | clearScreen | ret => rfl
  | jump a | call a | setIndex a | jumpIndexed a =>
    simp only [operands, List.forall_mem_singleton] at hrange
    simp [encode, decode?, fields_wordAddr, hrange]
  | draw x y n =>
    have hn := hrows x y n rfl
    simp only [operands, List.forall_mem_cons] at hrange
    simp [encode, decode?, fields_wordXYN, hrange, hn]
  | skipEqConst x n | skipNeConst x n | setConst x n | addConst x n | random x n =>
    simp only [operands, List.forall_mem_cons] at hrange
    simp [encode, decode?, fields_wordXB, hrange]
  | skipEq x y | skipNe x y | move x y | or x y | and x y | xor x y | add x y | sub x y
  | subFrom x y =>
    simp only [operands, List.forall_mem_cons] at hrange
    simp [encode, decode?, decodeArithmetic?, fields_wordXYN, hrange]
  | shiftRight x | shiftLeft x =>
    simp only [operands, List.forall_mem_singleton] at hrange
    simp [encode, decode?, decodeArithmetic?, fields_wordXYN, hrange]
  | skipKeyDown x | skipKeyUp x =>
    simp only [operands, List.forall_mem_singleton] at hrange
    simp [encode, decode?, decodeKey?, fields_wordXB, hrange]
  | _ =>
    simp only [operands, List.forall_mem_singleton] at hrange
    simp [encode, decode?, decodeMisc?, fields_wordXB, hrange]

/-! ### Decoding and then encoding -/

section words

variable {o : Opcode} {high n : Nat} {low : UInt8}

theorem wordXB_of_family (h : o.family.toNat = high) (hlow : o.lowByte = low) :
    wordXB high o.x low = o.word := by
  have hword := o.word.toNat_lt
  subst hlow
  rw [o.toNat_family] at h
  rw [← UInt16.toNat_inj, toNat_wordXB (by omega) o.x_lt, o.toNat_x, o.toNat_lowByte]
  omega

theorem wordXYN_of_family (h : o.family.toNat = high) (hlow : o.low.toNat = n) :
    wordXYN high o.x o.y n = o.word := by
  have hword := o.word.toNat_lt
  rw [o.toNat_family] at h
  rw [o.toNat_low] at hlow
  rw [← UInt16.toNat_inj, toNat_wordXYN (by omega) o.x_lt o.y_lt (by omega), o.toNat_x, o.toNat_y]
  omega

theorem wordAddr_of_family (h : o.family.toNat = high) : wordAddr high o.address = o.word := by
  have hword := o.word.toNat_lt
  rw [o.toNat_family] at h
  rw [← UInt16.toNat_inj, toNat_wordAddr (by omega) o.address_lt, o.toNat_address]
  omega

/-- The mask clears the third digit. -/
theorem toNat_and_mask (w : UInt16) :
    (w &&& 0xFF0F).toNat = 0x100 * (w.toNat / 0x100) + w.toNat % 0x10 := by
  have hw := w.toNat_lt
  have hmask : ∀ k < 16, Nat.testBit 0xFF0F k = (k < 4 || 8 ≤ k) := by decide
  rw [UInt16.toNat_and]
  apply Nat.eq_of_testBit_eq
  intro k
  rw [Nat.testBit_and, show (0x100 : Nat) = 2 ^ 8 by rfl, show (0x10 : Nat) = 2 ^ 4 by rfl,
    Nat.testBit_two_pow_mul_add _ (by omega), Nat.testBit_mod_two_pow, Nat.testBit_div_two_pow]
  by_cases hk : k < 16
  · rw [show (0xFF0F : UInt16).toNat = 0xFF0F by rfl, hmask k hk]
    by_cases hlow : k < 8
    · simp [hlow, Nat.not_le.2 hlow, Bool.and_comm]
    · simp [hlow, Nat.le_of_not_lt hlow]
  · have hzero : w.toNat.testBit k = false :=
      Nat.testBit_lt_two_pow (Nat.lt_of_lt_of_le hw (Nat.pow_le_pow_right (by decide) (by omega)))
    rw [hzero, if_neg (by omega), Nat.sub_add_cancel (by omega), hzero, Bool.false_and]

theorem wordXYN_zero_of_family (h : o.family.toNat = high) (hlow : o.low.toNat = n) :
    wordXYN high o.x 0 n = o.word &&& 0xFF0F := by
  have hword := o.word.toNat_lt
  rw [o.toNat_family] at h
  rw [o.toNat_low] at hlow
  rw [← UInt16.toNat_inj, toNat_wordXYN (by omega) o.x_lt (by decide) (by omega), o.toNat_x,
    toNat_and_mask, UInt8.toNat_zero]
  omega

end words

/-- A decoded instruction has a word, and it is the word it was decoded from, but for a digit that
    is ignored. -/
theorem encode_of_decode? {o : Opcode} {i : Instruction} (h : decode? o = some i) :
    i.encode = if i.ignoresY then o.word &&& 0xFF0F else o.word := by
  unfold decode? at h
  split at h
  case h_1 =>
    unfold decodeSystem? at h
    split at h <;> cases h <;> simp [encode, ignoresY, *]
  case h_9 =>
    unfold decodeArithmetic? at h
    split at h <;> cases h <;>
      simp [encode, ignoresY, wordXYN_of_family, wordXYN_zero_of_family, *]
  case h_15 =>
    unfold decodeKey? at h
    split at h <;> cases h <;> simp [encode, ignoresY, wordXB_of_family, *]
  case h_16 =>
    unfold decodeMisc? at h
    split at h <;> cases h <;> simp [encode, ignoresY, wordXB_of_family, *]
  -- the two families that admit a single low digit
  case h_6 | h_10 =>
    split at h <;> cases h
    simp [encode, ignoresY, wordXYN_of_family, *]
  case h_14 =>
    cases h
    simp [encode, ignoresY, wordXYN_of_family, *]
  case h_17 => cases h
  all_goals
    cases h
    simp [encode, ignoresY, wordAddr_of_family, wordXB_of_family, *]

theorem toNat_lowByte_eq (o : Opcode) : o.lowByte.toNat = 16 * o.y.toNat + o.low.toNat := by
  rw [o.toNat_lowByte, o.toNat_y, o.toNat_low]
  omega

theorem digits_eq (o : Opcode) :
    o.digits = [o.family.toNat, o.x.toNat, o.y.toNat, o.low.toNat] := by
  rw [o.toNat_family, o.toNat_x, o.toNat_y, o.toNat_low]
  rfl

/-- The last two digits of a word are those of its low byte. -/
theorem matches_of_lowByte {o : Opcode} {high : Nat} {low : UInt8} {d e : Nat}
    (h : o.family.toNat = high) (hlow : o.lowByte = low) (hd : low.toNat = 16 * d + e)
    (he : e < 16) :
    o.Matches [.digit high, .x, .digit d, .digit e] := by
  have hy := o.y_lt
  have hbyte := toNat_lowByte_eq o
  have hlow' : o.low.toNat < 16 := by
    rw [o.toNat_low]
    exact Nat.mod_lt _ (by decide)
  rw [Opcode.Matches, digits_eq]
  simp only [List.forall₂_cons, Place.Fits, List.Forall₂.nil, h, true_and, and_true]
  rw [hlow, hd] at hbyte
  omega

/-- A decoded word has the form of its instruction. -/
theorem matches_of_decode? {o : Opcode} {i : Instruction} (h : decode? o = some i) :
    o.Matches i.form := by
  unfold decode? at h
  split at h
  case h_1 =>
    unfold decodeSystem? at h
    split at h <;> cases h <;> simp [Opcode.Matches, Opcode.digits, form, *]
  case h_9 =>
    unfold decodeArithmetic? at h
    split at h <;> cases h <;> simp [Opcode.Matches, digits_eq, form, Place.Fits, *]
  case h_15 hfamily =>
    unfold decodeKey? at h
    split at h <;> cases h <;> exact matches_of_lowByte (by simp [*]) ‹_› rfl (by decide)
  case h_16 hfamily =>
    unfold decodeMisc? at h
    split at h <;> cases h <;> exact matches_of_lowByte (by simp [*]) ‹_› rfl (by decide)
  case h_6 | h_10 =>
    split at h <;> cases h
    simp [Opcode.Matches, digits_eq, form, Place.Fits, *]
  case h_17 => cases h
  all_goals
    cases h
    simp [Opcode.Matches, digits_eq, form, Place.Fits, *]

/-- A word with the form of an instruction is decoded to an instruction of that form. -/
theorem exists_decode?_of_matches {o : Opcode} {i : Instruction} (h : o.Matches i.form) :
    ∃ j, decode? o = some j ∧ j.form = i.form := by
  have hbyte := toNat_lowByte_eq o
  rw [Opcode.Matches, digits_eq] at h
  cases i with
  | clearScreen | ret =>
    simp only [form, List.forall₂_cons, Place.fits_ofNat] at h
    obtain ⟨hfamily, hx, hy, hlow, -⟩ := h
    rw [o.toNat_family] at hfamily
    rw [o.toNat_x] at hx
    rw [o.toNat_y] at hy
    rw [o.toNat_low] at hlow
    have hzero : o.family = UInt8.ofNat 0 := eq_ofNat_of_toNat (by rw [o.toNat_family, hfamily])
    have hword : o.word = UInt16.ofNat (16 * (o.word.toNat / 16 % 16) + o.word.toNat % 16) := by
      rw [← UInt16.toNat_inj, UInt16.toNat_ofNat_of_lt' (by simp only [UInt16.size]; omega)]
      omega
    rw [hy, hlow] at hword
    simp [decode?, decodeSystem?, hzero, hword, form]
  | jump | call | setIndex | jumpIndexed | draw
  | skipEqConst | skipNeConst | setConst | addConst | random =>
    simp only [form, List.forall₂_cons, Place.fits_ofNat] at h
    simp [decode?, eq_ofNat_of_toNat h.1, form]
  | skipEq | skipNe | move | or | and | xor | add | sub | subFrom | shiftRight | shiftLeft =>
    simp only [form, List.forall₂_cons, Place.fits_ofNat] at h
    obtain ⟨hfamily, -, -, hlow, -⟩ := h
    simp [decode?, decodeArithmetic?, eq_ofNat_of_toNat hfamily, eq_ofNat_of_toNat hlow, form]
  | _ =>
    simp only [form, List.forall₂_cons, Place.fits_ofNat] at h
    obtain ⟨hfamily, -, hy, hlow, -⟩ := h
    rw [hy, hlow] at hbyte
    simp [decode?, decodeKey?, decodeMisc?, eq_ofNat_of_toNat hfamily, eq_ofNat_of_toNat hbyte,
      form]

theorem hasWord_of_decode? {o : Opcode} {i : Instruction} (h : decode? o = some i) : i.HasWord := by
  refine ⟨inRange_of_decode? h, ?_⟩
  rintro x y n rfl
  have hform := matches_of_decode? h
  rw [Opcode.Matches, digits_eq] at hform
  simp only [form, List.forall₂_cons, Place.fits_ofNat] at hform
  simp only [decode?, eq_ofNat_of_toNat hform.1] at h
  cases h
  rw [o.toNat_low]
  exact Nat.mod_lt _ (by decide)

theorem fields_of_and_mask {w : UInt16} {high n : Nat} {x : UInt8} (hhigh : high < 16)
    (hx : x.toNat < 16) (hn : n < 16) (h : wordXYN high x 0 n = w &&& 0xFF0F) :
    let o : Opcode := ⟨w⟩
    o.family = UInt8.ofNat high ∧ o.x = x ∧ o.low = UInt8.ofNat n := by
  intro o
  have hmask : _ = 0x100 * (o.word.toNat / 0x100) + o.word.toNat % 0x10 := toNat_and_mask w
  rw [← h, toNat_wordXYN hhigh hx (by decide) hn, UInt8.toNat_zero] at hmask
  refine ⟨eq_ofNat_of_toNat ?_, UInt8.toNat_inj.1 ?_, eq_ofNat_of_toNat ?_⟩
  · rw [o.toNat_family]; omega
  · rw [o.toNat_x]; omega
  · rw [o.toNat_low]; omega

/-- A word is decoded to a shift whatever its third digit is. -/
theorem decode?_of_ignoresY {w : UInt16} {i : Instruction} (hi : i.HasWord)
    (hignores : i.ignoresY = true) (h : i.encode = w &&& 0xFF0F) : decode? ⟨w⟩ = some i := by
  cases i with
  | shiftRight x | shiftLeft x =>
    have hx : x.toNat < 16 := hi.1 (.reg x) (List.mem_singleton_self _)
    obtain ⟨hfamily, hx', hlow⟩ := fields_of_and_mask (by decide) hx (by decide) h
    simp [decode?, decodeArithmetic?, hfamily, hx', hlow]
  | _ => cases hignores

theorem decode?_eq_some_iff {w : UInt16} {i : Instruction} :
    decode? ⟨w⟩ = some i ↔
      i.HasWord ∧ i.encode = if i.ignoresY then w &&& 0xFF0F else w := by
  constructor
  · intro h
    exact ⟨hasWord_of_decode? h, encode_of_decode? h⟩
  · rintro ⟨hi, hword⟩
    split at hword
    · rename_i hignores
      exact decode?_of_ignoresY hi hignores hword
    · rw [← hword]
      exact decode?_encode hi

theorem decode?_eq_none_iff (o : Opcode) :
    decode? o = none ↔ ∀ i : Instruction, ¬ o.Matches i.form := by
  constructor
  · intro h i hi
    obtain ⟨j, hj, -⟩ := exists_decode?_of_matches hi
    cases h.symm.trans hj
  · intro h
    cases hi : decode? o with
    | none => rfl
    | some i => exact absurd (matches_of_decode? hi) (h i)

/-- Decoding accepts just the words that have the form of an instruction, and loses nothing: a word
    is decoded to an instruction exactly if that is its word, where the shifts ignore the third
    digit, and the operands are in range. So what can be encoded is decoded to itself, and its word
    has its form. Two bytes are decoded as the word that they make up. -/
theorem ofWord?_eq_some_iff_encode_eq (w : UInt16) (l r : UInt8) :
    (∀ i, ofWord? w = some i ↔
      i.HasWord ∧ i.encode = if i.ignoresY then w &&& 0xFF0F else w) ∧
    (ofWord? w = none ↔ ∀ i : Instruction, ¬ Opcode.Matches ⟨w⟩ i.form) ∧
    (∀ i : Instruction, i.HasWord →
      ofWord? i.encode = some i ∧ Opcode.Matches ⟨i.encode⟩ i.form) ∧
    ofBytes? l r = ofWord? (256 * l.toUInt16 + r.toUInt16) := by
  refine ⟨fun i => decode?_eq_some_iff, decode?_eq_none_iff ⟨w⟩, ?_, ?_⟩
  · intro i hi
    have hdecode := decode?_encode hi
    exact ⟨hdecode, matches_of_decode? hdecode⟩
  · have hword : (Opcode.ofBytes l r).word = 256 * l.toUInt16 + r.toUInt16 := by
      have hl := l.toNat_lt
      have hr := r.toNat_lt
      rw [← UInt16.toNat_inj, Opcode.toNat_word_ofBytes]
      simp only [UInt16.toNat_add, UInt16.toNat_mul, UInt8.toNat_toUInt16, UInt16.reduceToNat]
      omega
    rw [ofBytes?, ofWord?, ← hword]

/-- A shift with a third digit, whose own word has a zero there. -/
theorem ofWord?_shiftRight_third_digit :
    HasWord (.shiftRight 0xA) ∧ ofWord? 0x8AB6 = some (.shiftRight 0xA) ∧
      ofBytes? 0x8A 0xB6 = some (.shiftRight 0xA) ∧ encode (.shiftRight 0xA) = 0x8A06 := by
  have hi : HasWord (.shiftRight 0xA) := ⟨by decide, nofun⟩
  obtain ⟨hdecode, -, -, hbytes⟩ := ofWord?_eq_some_iff_encode_eq 0x8AB6 0x8A 0xB6
  have hword := (hdecode (.shiftRight 0xA)).2 ⟨hi, by decide⟩
  exact ⟨hi, hword, hbytes.trans hword, by decide⟩

end Instruction

end Chip8
