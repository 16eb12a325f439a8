/-! # The ChaCha20 key stream

    A key of eight words gives an endless stream of output words, sixteen to a block. Block `n` is
    twenty rounds of mixing applied to a square of sixteen words, added to that square: four
    constants, the key, `n` in two words, and two zero words. Every word of the stream is a function
    of the key and its position alone. -/

namespace Chip8.ChaCha

/-- Eight key words. -/
abbrev Key := Vector UInt32 8

/-- A square of sixteen words. -/
abbrev Square := Vector UInt32 16

/-- Rotates a word to the left. -/
def rotl (w n : UInt32) : UInt32 := w <<< n ||| w >>> (32 - n)

/-- Rotates a word to the right. -/
def rotr (w n : UInt32) : UInt32 := w >>> n ||| w <<< (32 - n)

/-- Mixes four words of the square. -/
def quarterRound (s : Square) (a b c d : Fin 16) : Square :=
  let wa := s[a] + s[b]
  let wd := rotl (s[d] ^^^ wa) 16
  let wc := s[c] + wd
  let wb := rotl (s[b] ^^^ wc) 12
  let wa := wa + wb
  let wd := rotl (wd ^^^ wa) 8
  let wc := wc + wd
  let wb := rotl (wb ^^^ wc) 7
  (((s.set a wa).set b wb).set c wc).set d wd

/-- A round on the columns of the square, then one on its diagonals. -/
def doubleRound (s : Square) : Square :=
  let s := quarterRound s 0 4 8 12
  let s := quarterRound s 1 5 9 13
  let s := quarterRound s 2 6 10 14
  let s := quarterRound s 3 7 11 15
  let s := quarterRound s 0 5 10 15
  let s := quarterRound s 1 6 11 12
  let s := quarterRound s 2 7 8 13
  quarterRound s 3 4 9 14

/-- The four words that every square starts with. -/
def constants : Vector UInt32 4 := #v[0x61707865, 0x3320646E, 0x79622D32, 0x6B206574]

/-- The square that block `n` starts from. -/
def start (key : Key) (n : UInt64) : Square :=
  constants ++ key ++ (#v[n.toUInt32, (n >>> 32).toUInt32, 0, 0] : Vector UInt32 4)

/-- The words of block `n`. -/
def block (key : Key) (n : UInt64) : Square :=
  Vector.zipWith (· + ·) (Nat.repeat doubleRound 10 (start key n)) (start key n)

/-- Word `j` of the stream. -/
def word (key : Key) (j : Nat) : UInt32 := (block key (UInt64.ofNat (j / 16)))[j % 16]

end Chip8.ChaCha
