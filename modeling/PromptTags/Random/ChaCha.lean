/-!
The ChaCha stream cipher as a source of words: sixteen 32-bit words of state, arranged as a square
of four rows, are mixed for a number of rounds and added to themselves. Successive blocks differ in
their counter only, so the word at any place of the stream is a function of the key and the place.
-/

namespace PromptTags.ChaCha

/-- One row of the square of words. -/
structure Row where
  a : UInt32
  b : UInt32
  c : UInt32
  d : UInt32
  deriving DecidableEq, Repr

namespace Row

def add (x y : Row) : Row := ⟨x.a + y.a, x.b + y.b, x.c + y.c, x.d + y.d⟩

def xor (x y : Row) : Row := ⟨x.a ^^^ y.a, x.b ^^^ y.b, x.c ^^^ y.c, x.d ^^^ y.d⟩

/-- The bits of a word turned left by `n` places, for `n` from 1 to 31. -/
def turn (n : UInt32) (w : UInt32) : UInt32 := (w <<< n) ||| (w >>> (32 - n))

def turnLanes (n : UInt32) (x : Row) : Row := ⟨turn n x.a, turn n x.b, turn n x.c, turn n x.d⟩

/-- The lanes moved one place to the left, the first becoming the last. -/
def shift (x : Row) : Row := ⟨x.b, x.c, x.d, x.a⟩

/-- The lane at a place, counted from zero and modulo four. -/
def lane (x : Row) (i : Nat) : UInt32 :=
  match i % 4 with
  | 0 => x.a
  | 1 => x.b
  | 2 => x.c
  | _ => x.d

end Row

/-- The state: four rows of four words. -/
structure Square where
  r0 : Row
  r1 : Row
  r2 : Row
  r3 : Row
  deriving DecidableEq, Repr

namespace Square

/-- The four quarter rounds on the columns, done lane by lane. -/
def mixColumns (s : Square) : Square :=
  let a := s.r0.add s.r1
  let d := (s.r3.xor a).turnLanes 16
  let c := s.r2.add d
  let b := (s.r1.xor c).turnLanes 12
  let a := a.add b
  let d := (d.xor a).turnLanes 8
  let c := c.add d
  let b := (b.xor c).turnLanes 7
  ⟨a, b, c, d⟩

/-- Rows moved so that the diagonals stand as columns. -/
def skew (s : Square) : Square := ⟨s.r0, s.r1.shift, s.r2.shift.shift, s.r3.shift.shift.shift⟩

def unskew (s : Square) : Square := ⟨s.r0, s.r1.shift.shift.shift, s.r2.shift.shift, s.r3.shift⟩

/-- A round on the columns and a round on the diagonals. -/
def doubleRound (s : Square) : Square := s.mixColumns.skew.mixColumns.unskew

def rounds : Nat → Square → Square
  | 0, s => s
  | n + 1, s => rounds n s.doubleRound

def add (s t : Square) : Square := ⟨s.r0.add t.r0, s.r1.add t.r1, s.r2.add t.r2, s.r3.add t.r3⟩

/-- The word at a place, row by row, counted from zero and modulo sixteen. -/
def word (s : Square) (i : Nat) : UInt32 :=
  match i / 4 % 4 with
  | 0 => s.r0.lane i
  | 1 => s.r1.lane i
  | 2 => s.r2.lane i
  | _ => s.r3.lane i

end Square

/-- A 256-bit key as two rows of words. -/
structure Key where
  low : Row
  high : Row
  deriving DecidableEq, Repr

/-- The starting square for a block: constants, key, 64-bit block counter and a nonce of zero. -/
def start (key : Key) (block : UInt64) : Square where
  r0 := ⟨0x61707865, 0x3320646e, 0x79622d32, 0x6b206574⟩
  r1 := key.low
  r2 := key.high
  r3 := ⟨block.toUInt32, (block >>> 32).toUInt32, 0, 0⟩

/-- A block of twelve-round ChaCha. -/
def block (key : Key) (n : UInt64) : Square :=
  let s := start key n
  (Square.rounds 6 s).add s

/-- The word at a place of the stream of a key. -/
def word (key : Key) (i : Nat) : UInt32 := (block key (i / 16).toUInt64).word i

end PromptTags.ChaCha
