import FormatLint.Corpus.Draw

/-!
The Mersenne Twister with 624 words of 32 bits. It is seeded with an integer, whose sign does not
matter. Numbers below a bound are drawn by trying as many bits as the bound has until they are below
it; fractions have 53 bits.
-/

namespace FormatLint

/-- The words of the generator and how many of them have been given out. -/
structure Twister where
  words : Array UInt32
  used : Nat

namespace Twister

def size : Nat := 624

def word (words : Array UInt32) (index : Nat) : UInt32 := words.getD (index % size) 0

/-- The words that a single number seeds. -/
def scatter (seed : UInt32) : Array UInt32 :=
  (List.range (size - 1)).foldl
    (fun (words : Array UInt32) (index : Nat) =>
      let last := word words index
      let mixed := last ^^^ (last >>> 30)
      words.push (mixed * 1812433253 + (index + 1).toUInt32))
    #[seed]

/-- The 32-bit digits of a number, the lowest first; zero has one digit. -/
def digits (n : Nat) : List UInt32 :=
  if n >>> 32 = 0 then [n.toUInt32] else n.toUInt32 :: digits (n >>> 32)
termination_by n
decreasing_by
  rw [Nat.shiftRight_eq_div_pow] at *
  omega

/-- Words under mixing, and the place at which the next one is mixed. -/
structure Mixing where
  words : Array UInt32
  place : Nat

def Mixing.step (m : Mixing) (mix : UInt32 → UInt32 → UInt32) : Mixing :=
  let before := word m.words (m.place - 1)
  let words := m.words.setIfInBounds m.place
    (mix (word m.words m.place) (before ^^^ (before >>> 30)))
  if m.place + 1 < size then ⟨words, m.place + 1⟩
  else ⟨words.setIfInBounds 0 (word words (size - 1)), 1⟩

/-- The generator with the given digits as its key. -/
def ofKey (key : Array UInt32) : Twister :=
  let start : Mixing := ⟨scatter 19650218, 1⟩
  let keyed := (List.range (max size key.size)).foldl
    (fun (m : Mixing) (round : Nat) =>
      let index := round % key.size
      m.step fun old before =>
        (old ^^^ (before * 1664525)) + key.getD index 0 + index.toUInt32)
    start
  let mixed := (List.range (size - 1)).foldl
    (fun (m : Mixing) _ =>
      m.step fun old before => (old ^^^ (before * 1566083941)) - m.place.toUInt32)
    keyed
  ⟨mixed.words.setIfInBounds 0 0x80000000, size⟩

def ofSeed (seed : Int) : Twister := ofKey (digits seed.natAbs).toArray

def refill (words : Array UInt32) : Array UInt32 :=
  (List.range size).foldl
    (fun (words : Array UInt32) (index : Nat) =>
      let joined := (word words index &&& 0x80000000) ||| (word words (index + 1) &&& 0x7FFFFFFF)
      let twisted := if joined &&& 1 = 1 then (joined >>> 1) ^^^ 0x9908B0DF else joined >>> 1
      words.setIfInBounds index (word words (index + 397) ^^^ twisted))
    words

def temper (w : UInt32) : UInt32 :=
  let a := w ^^^ (w >>> 11)
  let b := a ^^^ ((a <<< 7) &&& 0x9D2C5680)
  let c := b ^^^ ((b <<< 15) &&& 0xEFC60000)
  c ^^^ (c >>> 18)

def next (t : Twister) : UInt32 × Twister :=
  if t.used < size then (temper (word t.words t.used), { t with used := t.used + 1 })
  else
    let words := refill t.words
    (temper (word words 0), ⟨words, 1⟩)

/-- The number of binary digits of a number. -/
def bitLength (n : Nat) : Nat := if n = 0 then 0 else n.log2 + 1

/-- How often bits are drawn for one number. Each try fails with a chance below one half. -/
def maxTries : Nat := 4096

/-- Tries bits until they are below the bound. -/
def tryBelow (bound : Nat) : Nat → Twister → Nat × Twister
  | 0, t => (0, t)
  | tries + 1, t =>
    let (bits, rest) := t.next
    let candidate := bits.toNat >>> (32 - bitLength bound)
    if candidate < bound then (candidate, rest) else tryBelow bound tries rest

theorem tryBelow_lt (bound tries : Nat) (t : Twister) (positive : 0 < bound) :
    (tryBelow bound tries t).1 < bound := by
  induction tries generalizing t with
  | zero => exact positive
  | succ tries ih =>
    unfold tryBelow
    dsimp only
    split
    · assumption
    · exact ih _

/-- The 53 bits of a fraction, from the high bits of two words. -/
def fractionBits (t : Twister) : Nat × Twister :=
  let (high, rest) := t.next
  let (low, last) := rest.next
  ((high >>> 5).toNat <<< 26 + (low >>> 6).toNat, last)

/-- A number of thousandths below a whole as a binary fraction of 53 significant digits: the
numerator, and the exponent of two in the denominator. -/
def binaryFraction (permille : Nat) : Nat × Nat :=
  let exponent := 52 + bitLength ((1000 - 1) / permille)
  let scaled := permille <<< exponent
  let quotient := scaled / 1000
  let rounded :=
    if 2 * (scaled % 1000) > 1000 ∨ (2 * (scaled % 1000) = 1000 ∧ quotient % 2 = 1) then
      quotient + 1
    else quotient
  (rounded, exponent)

/-- The fraction with these 53 bits is less than a number of thousandths, as a binary fraction. -/
def isBelow (bits permille : Nat) : Bool :=
  let (numerator, exponent) := binaryFraction permille
  bits <<< exponent < numerator <<< 53

instance : Draws Twister where
  number bound t := tryBelow bound maxTries t
  lot t := (⟨isBelow t.fractionBits.1⟩, t.fractionBits.2)
  number_lt bound t := tryBelow_lt bound maxTries t

end Twister

end FormatLint
