import PromptTags.Random.ChaCha

/-!
Random sources. A source is an endless stream of 32-bit words and the place of the next one. All
drawing goes through `Source.next`, so whatever is said of every stream covers seeded generators
and replayed words alike.
-/

namespace PromptTags

/-- An endless stream of words with the place of the next one. -/
structure Source where
  word : Nat → UInt32
  place : Nat

namespace Source

def peek (s : Source) : UInt32 := s.word s.place

def step (s : Source) : Source := { s with place := s.place + 1 }

def next (s : Source) : UInt32 × Source := (s.peek, s.step)

/-- Take two words as one number, the low half first. -/
def next64 (s : Source) : UInt64 × Source :=
  (s.step.peek.toUInt64 <<< 32 ||| s.peek.toUInt64, s.step.step)

def wordCount : Nat := UInt32.size

/-- Draw one of `n` values, counted from zero: the high half of a word times `n`. A second word
decides whether the low half carries, which is what keeps the values nearly uniform. -/
def below (n : Nat) (s : Source) : Nat × Source :=
  let product := s.peek.toNat * n
  let high := product / wordCount
  let low := product % wordCount
  if wordCount < low + n then
    let carry := (low + s.step.peek.toNat * n / wordCount) / wordCount
    (high + carry, s.step.step)
  else (high, s.step)

/-- Draw a number from `lo` to `hi`, both included. -/
def between (lo hi : Nat) (s : Source) : Nat × Source :=
  let (i, s) := s.below (hi - lo + 1)
  (lo + i, s)

/-- Draw an element of a list; an empty list draws nothing. -/
def choose {α : Type} (items : List α) (s : Source) : Option α × Source :=
  if items.isEmpty then (none, s)
  else
    let (i, s) := s.below items.length
    (items[i]?, s)

/-- A source that replays the given words in a cycle. -/
def cycle (words : List UInt32) : Source where
  word i := words.getD (i % words.length) 0
  place := 0

/-- One step of the congruential generator that spreads a seed over a key: the next state and the
word that is taken from it. -/
def spread (state : UInt64) : UInt64 × UInt32 :=
  let state := state * 6364136223846793005 + 11634580027462260723
  let x := (((state >>> 18) ^^^ state) >>> 27).toUInt32
  let turn := (state >>> 59).toUInt32
  (state, (x >>> turn) ||| (x <<< ((32 - turn) &&& 31)))

/-- The cipher key for a seed: eight words of the congruential generator. -/
def keyOfSeed (seed : UInt64) : ChaCha.Key :=
  let (s, a) := spread seed
  let (s, b) := spread s
  let (s, c) := spread s
  let (s, d) := spread s
  let (s, e) := spread s
  let (s, f) := spread s
  let (s, g) := spread s
  let (_, h) := spread s
  ⟨⟨a, b, c, d⟩, ⟨e, f, g, h⟩⟩

def ofSeed (seed : UInt64) : Source :=
  let key := keyOfSeed seed
  ⟨ChaCha.word key, 0⟩

/-- The first `n` item seeds of a source: successive 64-bit numbers. -/
def seeds : Nat → Source → List UInt64
  | 0, _ => []
  | n + 1, s =>
    let (seed, s) := s.next64
    seed :: seeds n s

end Source

end PromptTags
