/-!
# Seeded random numbers

A seed is stretched to a key of eight words. Under the key every block number gives a block of sixteen
words: a start state is mixed by twelve rounds of additions, exclusive ors and rotations, and the start
state is added to the result. Two words at a time, the blocks form a stream of 64-bit numbers.
-/

namespace MissionGraph.Play

/-- A 32-bit word turned left. -/
def turnLeft (word : UInt32) (count : UInt32) : UInt32 :=
  (word <<< count) ||| (word >>> (32 - count))

/-- Four words beside each other. -/
structure Row where
  a : UInt32
  b : UInt32
  c : UInt32
  d : UInt32
deriving DecidableEq

namespace Row

/-- Joins two rows word by word. -/
def zip (join : UInt32 → UInt32 → UInt32) (first second : Row) : Row :=
  ⟨join first.a second.a, join first.b second.b, join first.c second.c, join first.d second.d⟩

def add : Row → Row → Row := zip (· + ·)

def xor : Row → Row → Row := zip (· ^^^ ·)

/-- Turns every word left. -/
def turn (row : Row) (count : UInt32) : Row :=
  ⟨turnLeft row.a count, turnLeft row.b count, turnLeft row.c count, turnLeft row.d count⟩

/-- Moves every word one place to the left; the first becomes the last. -/
def shift (row : Row) : Row := ⟨row.b, row.c, row.d, row.a⟩

def toList (row : Row) : List UInt32 := [row.a, row.b, row.c, row.d]

end Row

/-- Sixteen words in four rows. -/
structure Square where
  first : Row
  second : Row
  third : Row
  fourth : Row
deriving DecidableEq

namespace Square

def add (x y : Square) : Square :=
  ⟨x.first.add y.first, x.second.add y.second, x.third.add y.third, x.fourth.add y.fourth⟩

def toList (square : Square) : List UInt32 :=
  square.first.toList ++ square.second.toList ++ square.third.toList ++ square.fourth.toList

/-- Mixes the first two rows into the others, and these back into the second. -/
def mixWith (square : Square) (outer inner : UInt32) : Square :=
  let first := square.first.add square.second
  let fourth := (square.fourth.xor first).turn outer
  let third := square.third.add fourth
  let second := (square.second.xor third).turn inner
  ⟨first, second, third, fourth⟩

/-- Mixes the four columns, each for itself. -/
def mixColumns (square : Square) : Square :=
  (square.mixWith 16 12).mixWith 8 7

/-- Turns the diagonals into columns. -/
def skew (square : Square) : Square :=
  ⟨square.first, square.second.shift, square.third.shift.shift, square.fourth.shift.shift.shift⟩

/-- Turns the columns back into diagonals. -/
def unskew (square : Square) : Square :=
  ⟨square.first, square.second.shift.shift.shift, square.third.shift.shift, square.fourth.shift⟩

/-- One round on the columns and one on the diagonals. -/
def doubleRound (square : Square) : Square :=
  square.mixColumns.skew.mixColumns.unskew

/-- The given count of double rounds. -/
def rounds : Nat → Square → Square
  | 0, square => square
  | count + 1, square => rounds count square.doubleRound

end Square

/-- The two rows of a block's start state that depend on the seed. -/
structure Key where
  low : Row
  high : Row
deriving DecidableEq

namespace Key

/-- The next state of the generator that stretches a seed. -/
def advance (state : UInt64) : UInt64 :=
  state * 6364136223846793005 + 11634580027462260723

/-- The word that a state of that generator gives. -/
def output (state : UInt64) : UInt32 :=
  let word := (((state >>> 18) ^^^ state) >>> 27).toUInt32
  let count := (state >>> 59).toUInt32
  (word >>> count) ||| (word <<< (32 - count))

/-- The next four words and the state after them. -/
def nextRow (state : UInt64) : Row × UInt64 :=
  let one := advance state
  let two := advance one
  let three := advance two
  let four := advance three
  (⟨output one, output two, output three, output four⟩, four)

def ofSeed (seed : UInt64) : Key :=
  let (low, state) := nextRow seed
  ⟨low, (nextRow state).1⟩

/-- The start state of a block. -/
def startState (key : Key) (block : Nat) : Square where
  first := ⟨0x61707865, 0x3320646e, 0x79622d32, 0x6b206574⟩
  second := key.low
  third := key.high
  fourth := ⟨UInt32.ofNat block, UInt32.ofNat (block / UInt32.size), 0, 0⟩

/-- The sixteen words of a block. -/
def words (key : Key) (block : Nat) : List UInt32 :=
  let start := key.startState block
  ((start.rounds 6).add start).toList

/-- The number at a place of the stream: the word there and, as its high half, the word after it. -/
def number (key : Key) (place : Nat) : Nat :=
  let words := key.words (place / 8)
  let index := 2 * (place % 8)
  (words.getD index 0).toNat + UInt32.size * (words.getD (index + 1) 0).toNat

end Key

/-- A stream of random numbers from which some have been taken. -/
structure Dice where
  key : Key
  taken : Nat
deriving DecidableEq

namespace Dice

def ofSeed (seed : UInt64) : Dice := ⟨.ofSeed seed, 0⟩

/-- The number of sides that a 64-bit number is spread over, doubled while it fits into 64 bits. The low
half of a product below it makes all sides equally likely. -/
def zone (sides : Nat) : Nat :=
  sides <<< (63 - sides.log2)

/-- Takes numbers from the stream until one is accepted, but no more than the given count; at the last
every number is accepted. -/
def rollWithin : Nat → Dice → Nat → Nat × Dice
  | 0, dice, sides => (dice.key.number dice.taken * sides / UInt64.size, ⟨dice.key, dice.taken + 1⟩)
  | tries + 1, dice, sides =>
      let product := dice.key.number dice.taken * sides
      let next : Dice := ⟨dice.key, dice.taken + 1⟩
      if product % UInt64.size < zone sides then (product / UInt64.size, next)
      else rollWithin tries next sides

/-- A random number below the count of sides. More than half of all numbers are accepted, so that the
bound on the tries is not met in practice. -/
def roll (dice : Dice) (sides : Nat) : Nat × Dice :=
  rollWithin 1000 dice sides

end Dice

end MissionGraph.Play
